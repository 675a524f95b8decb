/-
  Svod.Runtime.RuntimeVars

  Rebinding the runtime variables of a prepared plan
  (`update_runtime_var_vals` of `runtime/src/execution_plan.rs`).

  A function of `&mut self` returns its result beside the state it leaves, also
  when the result is an error: what was written before the failure stays
  written.  A `HashMap` is a finite map; where a list is collected into one, the
  last entry of a key wins.
-/

import Mathlib.Data.Finmap
import Svod.Runtime.Leveling

namespace Svod.Runtime.RuntimeVars

/-- `HashMap<String, i64>`. -/
abbrev Bindings := Finmap fun _ : String => ℤ

/-! ## The plan -/

/-- A variable with its bounds, both included. -/
structure RuntimeVar where
  name : String
  minVal : ℤ
  maxVal : ℤ
deriving DecidableEq, Repr

/-- A kernel with the values of its variables. -/
structure PreparedKernel where
  id : ℕ
  /-- `kernel.var_names`, shared with every plan that runs the cached kernel. -/
  varNames : List String
  /-- Variable values in the order of `varNames`. -/
  vals : List ℤ
  fixedvars : Bindings
  runtimeVars : List RuntimeVar
deriving DecidableEq

/-- A custom function with its variables. -/
structure PreparedCustomFunction where
  fixedvars : Bindings
  runtimeVars : List RuntimeVar
deriving DecidableEq

/-- An operation of a plan. -/
inductive PreparedOp where
  | compiledProgram (kernel : PreparedKernel)
  | bufferCopy
  | customFunction (custom : PreparedCustomFunction)
deriving DecidableEq

/-- A prepared plan. -/
structure ExecutionPlan where
  ops : List PreparedOp
  /-- Last bindings supplied through `execute_with_vars`. -/
  runtimeVarVals : Bindings
deriving DecidableEq

/-! ## Bounds -/

/-- The bindings of a call; the last one of a name counts. -/
def collect (varVals : List (String × ℤ)) : Bindings :=
  varVals.foldl (fun m e => m.insert e.1 e.2) ∅

/-- A value outside the bounds is refused. -/
def validateVarBound (name : String) (value minVal maxVal : ℤ) : Except ExecutionError Unit :=
  if value < minVal ∨ value > maxVal then
    .error ⟨s!"variable {name}={value} is outside bounds [{minVal}, {maxVal}]"⟩
  else .ok ()

/-- The value a variable has now: its first position in `varNames`, looked up in `vals`. -/
def PreparedKernel.current (kernel : PreparedKernel) (name : String) : Option ℤ :=
  (kernel.varNames.idxOf? name).bind fun index => kernel.vals[index]?

/-- The values the kernel would run with are within bounds. -/
def PreparedKernel.validate (kernel : PreparedKernel) (valsMap : Bindings) :
    Except ExecutionError Unit :=
  kernel.runtimeVars.forM fun var =>
    if var.name ∈ kernel.fixedvars ∨ var.name = "core_id" then .ok ()
    else
      match (valsMap.lookup var.name).or (kernel.current var.name) with
      | some value => validateVarBound var.name value var.minVal var.maxVal
      | none => .ok ()

/-- The supplied values are within bounds. -/
def PreparedCustomFunction.validate (custom : PreparedCustomFunction) (valsMap : Bindings) :
    Except ExecutionError Unit :=
  custom.runtimeVars.forM fun var =>
    if var.name ∈ custom.fixedvars ∨ var.name = "core_id" then .ok ()
    else
      match valsMap.lookup var.name with
      | some value => validateVarBound var.name value var.minVal var.maxVal
      | none => .ok ()

/-- Every operation accepts the bindings. -/
def ExecutionPlan.validateRuntimeVarBounds (plan : ExecutionPlan)
    (varVals : List (String × ℤ)) : Except ExecutionError Unit :=
  let valsMap := collect varVals
  plan.ops.forM fun op =>
    match op with
    | .compiledProgram kernel => kernel.validate valsMap
    | .customFunction custom => custom.validate valsMap
    | .bufferCopy => .ok ()

/-! ## The update -/

/-- `for x in &mut xs` whose body may return an error: the rest of the list stays as it was. -/
def forEachMut {α ε : Type} (body : α → Except ε Unit × α) : List α → Except ε Unit × List α
  | [] => (.ok (), [])
  | x :: rest =>
    match body x with
    | (.ok (), x') => ((forEachMut body rest).1, x' :: (forEachMut body rest).2)
    | (.error e, x') => (.error e, x' :: rest)

/-- The error of a kernel with too few values. -/
def PreparedKernel.missingValue (kernel : PreparedKernel) (vals : List ℤ) : ExecutionError :=
  ⟨s!"Kernel {kernel.id} has {kernel.varNames.length} var names but only {vals.length} values"⟩

/-- The loop over the names from position `idx` on. -/
def PreparedKernel.rebindFrom (kernel : PreparedKernel) (valsMap : Bindings) :
    ℕ → List String → List ℤ → Except ExecutionError Unit × List ℤ
  | _, [], vals => (.ok (), vals)
  | idx, name :: rest, vals =>
    if name ∈ kernel.fixedvars ∨ name = "core_id" then
      kernel.rebindFrom valsMap (idx + 1) rest vals
    else
      match valsMap.lookup name with
      | some v =>
        if idx < vals.length then kernel.rebindFrom valsMap (idx + 1) rest (vals.set idx v)
        else (.error (kernel.missingValue vals), vals)
      | none => kernel.rebindFrom valsMap (idx + 1) rest vals

/-- The supplied values replace those of the kernel. -/
def PreparedKernel.rebind (kernel : PreparedKernel) (valsMap : Bindings) :
    Except ExecutionError Unit × PreparedKernel :=
  let r := kernel.rebindFrom valsMap 0 kernel.varNames kernel.vals
  (r.1, { kernel with vals := r.2 })

/-- Only kernels keep values. -/
def PreparedOp.rebind (op : PreparedOp) (valsMap : Bindings) :
    Except ExecutionError Unit × PreparedOp :=
  match op with
  | .compiledProgram kernel =>
    ((kernel.rebind valsMap).1, .compiledProgram (kernel.rebind valsMap).2)
  | .bufferCopy => (.ok (), .bufferCopy)
  | .customFunction custom => (.ok (), .customFunction custom)

/-- The loop that records the supplied bindings. -/
def recordVarVals (runtimeVarVals : Bindings) (varVals : List (String × ℤ)) : Bindings :=
  varVals.foldl (fun m e => if e.1 = "core_id" then m else m.insert e.1 e.2) runtimeVarVals

/-- All bounds are checked before any value is replaced. -/
def ExecutionPlan.updateRuntimeVarVals (plan : ExecutionPlan) (varVals : List (String × ℤ)) :
    Except ExecutionError Unit × ExecutionPlan :=
  match plan.validateRuntimeVarBounds varVals with
  | .error e => (.error e, plan)
  | .ok () =>
    let r := forEachMut (fun op => op.rebind (collect varVals)) plan.ops
    (r.1, { ops := r.2, runtimeVarVals := recordVarVals plan.runtimeVarVals varVals })

/-! ## What an update promises -/

/-- The last value listed for a name. -/
def listed (varVals : List (String × ℤ)) (name : String) : Option ℤ :=
  (varVals.reverse.find? fun e => e.1 = name).map Prod.snd

/-- The value a name of the kernel is given: none for an internal or a fixed variable. -/
def PreparedKernel.rebinding (kernel : PreparedKernel) (varVals : List (String × ℤ))
    (name : String) : Option ℤ :=
  if name ∈ kernel.fixedvars ∨ name = "core_id" then none else listed varVals name

/-- `kernel'` is `kernel` with a new value at each position whose name is given one. -/
structure PreparedKernel.Rebound (varVals : List (String × ℤ)) (kernel kernel' : PreparedKernel) :
    Prop where
  same : kernel' = { kernel with vals := kernel'.vals }
  vals : ∀ pos : ℕ, kernel'.vals[pos]? =
    ((kernel.varNames[pos]?).bind (kernel.rebinding varVals)).or kernel.vals[pos]?

/-- Only a kernel has new values. -/
def PreparedOp.Rebound (varVals : List (String × ℤ)) : PreparedOp → PreparedOp → Prop
  | .compiledProgram kernel, .compiledProgram kernel' => kernel.Rebound varVals kernel'
  | op, op' => op' = op

/-- Every operation and the record have the new values. -/
structure ExecutionPlan.Rebound (varVals : List (String × ℤ)) (plan plan' : ExecutionPlan) :
    Prop where
  ops : List.Forall₂ (PreparedOp.Rebound varVals) plan.ops plan'.ops
  runtimeVarVals : ∀ name, plan'.runtimeVarVals.lookup name =
    if name = "core_id" then plan.runtimeVarVals.lookup name
    else (listed varVals name).or (plan.runtimeVarVals.lookup name)

/-- Every kernel has a value for each of its variable names. -/
def ExecutionPlan.FullyValued (plan : ExecutionPlan) : Prop :=
  ∀ kernel, PreparedOp.compiledProgram kernel ∈ plan.ops →
    kernel.varNames.length ≤ kernel.vals.length

end Svod.Runtime.RuntimeVars
