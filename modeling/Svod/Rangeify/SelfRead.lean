/-
  Svod.Rangeify.SelfRead

  The test that a STORE needs no temporary for its value (`self_read_misses_store`
  of `rangeify/indexing.rs`): every read of the base buffer inside the value
  misses the window that the STORE writes.

  Nodes are numbered, sources before their users.  The arguments of a SHRINK are
  scalar expressions; they read no buffer.  What `symbolic` makes of an expression
  is a parameter.
-/

import Mathlib.Order.CompletePartialOrder
import Svod.Ir.SIntSpec
import Svod.Lib.Dag
import Svod.Lib.NdArray

namespace Svod.Rangeify.SelfRead

open Svod.Ir Svod.Ir.RangeEval Svod.Lib

/-! ## The graph -/

inductive Op where
  | reshape (src : ℕ)
  | shrink (src : ℕ) (offsets sizes : UOp)
  /-- `PERMUTE`, `EXPAND`, `PAD`, `FLIP` and `MULTI`. -/
  | moved (src : ℕ)
  | other (sources : List ℕ)

def Op.sources : Op → List ℕ
  | .reshape src | .shrink src _ _ | .moved src => [src]
  | .other sources => sources

structure Node where
  op : Op
  shape : List SInt

/-- `try_int`. -/
def tryInt : ConstValue → Option ℤ
  | .int v => some v
  | .uint v => some (wrapSigned 64 v)
  | _ => none

/-- A lane of `VCONST` as an index. -/
def laneConst : ConstValue → Option UOp
  | .int n => UOp.indexConst n
  | .uint n => UOp.indexConst (wrapSigned 64 n)
  | _ => none

/-- `extract_shape_uops`; `none` is a panic. -/
def extractShapeUops : UOp → Option (List UOp)
  | .cast src _ => extractShapeUops src
  | .stack n sources _ => some (List.ofFn fun i : Fin n => sources i)
  | .const c d => some [.const c d]
  | .vconst values _ => values.mapM laneConst
  | e => if e.dtype.isInt then some [e] else none

structure Graph where
  node : ℕ → Node
  below : ∀ n, ∀ s ∈ (node n).op.sources, s < n
  /-- A SHRINK has an offset and a size for each axis of its source. -/
  ranked : ∀ n src offsets sizes, (node n).op = .shrink src offsets sizes →
    ∀ l, extractShapeUops offsets = some l → l.length = (node src).shape.length

namespace Graph

variable (g : Graph)

/-- `base`: the source of all movement operations. -/
def base (n : ℕ) : ℕ :=
  match h : (g.node n).op with
  | .reshape src | .shrink src _ _ | .moved src =>
    have : src < n := g.below n src (by rw [h]; exact List.mem_singleton.mpr rfl)
    base src
  | .other _ => n
termination_by n

/-- `through_reshapes`. -/
def throughReshapes (n : ℕ) : ℕ :=
  match h : (g.node n).op with
  | .reshape src =>
    have : src < n := g.below n src (by rw [h]; exact List.mem_singleton.mpr rfl)
    throughReshapes src
  | _ => n
termination_by n

end Graph

/-! ## The test -/

/-- `ShrinkView`. -/
structure ShrinkView where
  offsets : List UOp
  sizes : List UOp
  shape : List SInt

/-- The least gap clears the size of the read window. -/
def startsPast (gap : Bounds) (bsz : ℤ) : Bool := (tryInt gap.1).any (bsz ≤ ·)

/-- The greatest gap clears the size of the target. -/
def endsBefore (gap : Bounds) (asz : ℤ) : Bool := (tryInt gap.2).any (· ≤ wrapSigned 64 (-asz))

section

variable (symbolic : UOp → UOp)

variable (g : Graph) (base : ℕ)

end

/-! ## Windows -/

/-- The value of each dimension of a shape. -/
def dims (env : UOp.Env) (shape : List SInt) : Option (List ℕ) :=
  shape.mapM fun d => (d.value env).bind fun v => if 0 ≤ v then some v.toNat else none

/-- The coordinates that a SHRINK reads. -/
def Window (env : UOp.Env) (offsets sizes : UOp) (coords : List ℕ) : Prop :=
  ∀ i (h : i < coords.length), ∃ o s, offsets.eval env [i] = some o ∧
    sizes.eval env [i] = some s ∧ o ≤ coords[i] ∧ coords[i] < o + s

namespace Graph

variable (g : Graph) (env : UOp.Env)

/-- The elements of the base under the window of a view of it. -/
def windowOver (view : ℕ) (offsets sizes : UOp) : Set ℕ :=
  {p | ∃ d c, dims env (g.node view).shape = some d ∧ InBounds c d ∧ Window env offsets sizes c ∧
    p = ravel d c}

/-- The elements of the base that the STORE writes; all of them where the target is no window. -/
def written (base index : ℕ) : Set ℕ :=
  match (g.node index).op with
  | .shrink src offsets sizes =>
    if g.throughReshapes src = base then g.windowOver env src offsets sizes else Set.univ
  | _ => Set.univ

/-- The elements of the base that the computation of `n` reads. -/
def reads (base n : ℕ) : Set ℕ :=
  if n = base then Set.univ
  else
    match h : (g.node n).op with
    | .reshape src | .moved src =>
      have : src < n := g.below n src (by rw [h]; exact List.mem_singleton.mpr rfl)
      reads base src
    | .shrink src offsets sizes =>
      have : src < n := g.below n src (by rw [h]; exact List.mem_singleton.mpr rfl)
      if g.throughReshapes src = base then g.windowOver env src offsets sizes else reads base src
    | .other sources =>
      ⋃ s : {s // s ∈ sources},
        have : s.1 < n := g.below n s.1 (by rw [h]; exact s.2)
        reads base s.1
termination_by n

end Graph

/-! ## Values -/

/-- An array: the element at each coordinate list inside it. -/
abbrev Value (D : Type) := List ℕ → Option D

/-- Where a SHRINK reads the element at `c`, from axis `i` on. -/
def place (env : UOp.Env) (offsets sizes : UOp) : ℕ → List ℕ → Option (List ℕ)
  | _, [] => some []
  | i, k :: c => do
    let o ← offsets.eval env [i]
    let s ← sizes.eval env [i]
    let c' ← place env offsets sizes (i + 1) c
    if (k : ℤ) < s ∧ 0 ≤ o + k then some ((o + k).toNat :: c') else none

namespace Graph

variable {D : Type} (g : Graph) (env : UOp.Env)

/-- The value of a node, from the contents `mem` of the base; `sem n` computes node `n` from the
    values of its sources. -/
def eval (sem : ℕ → List (Value D) → Value D) (base : ℕ) (mem : ℕ → D) (n : ℕ) : Value D :=
  if n = base then fun c => do
    let d ← dims env (g.node n).shape
    if InBounds c d then some (mem (ravel d c)) else none
  else
    match h : (g.node n).op with
    | .reshape src =>
      have : src < n := g.below n src (by rw [h]; exact List.mem_singleton.mpr rfl)
      fun c => do
        let d ← dims env (g.node n).shape
        let d' ← dims env (g.node src).shape
        if InBounds c d ∧ ravel d c < d'.prod then
          eval sem base mem src (unravel d' (ravel d c))
        else none
    | .shrink src offsets sizes =>
      have : src < n := g.below n src (by rw [h]; exact List.mem_singleton.mpr rfl)
      fun c => (place env offsets sizes 0 c).bind (eval sem base mem src)
    | .moved src =>
      have : src < n := g.below n src (by rw [h]; exact List.mem_singleton.mpr rfl)
      sem n [eval sem base mem src]
    | .other sources =>
      sem n (sources.attach.map fun s : {s // s ∈ sources} =>
        have : s.1 < n := g.below n s.1 (by rw [h]; exact s.2)
        eval sem base mem s.1)
termination_by n

end Graph

end Svod.Rangeify.SelfRead
