/-
  Svod.Late.Gater

  Moving the validity of `WHERE(gate, index, Invalid)` into memory operations
  (`pm_move_gates_from_index` of `schedule/src/late/gater.rs`).

  A node has a value, names the place an access goes to, or is Invalid.  An
  access to an Invalid place is disabled: a store writes nothing, a load yields
  zero; a gated load yields its alternative when its gate fails.  What the values
  are and how casts convert them is left open; `machine` is the reading of the
  integer and boolean dtypes.  Nodes are compared by `Arc::ptr_eq`, which on
  interned nodes is equality.
-/

import Svod.Ir.RangeEvalSpec

namespace Svod.Late.Gater

open Svod Svod.Ir

/-- A storage node that the rules carry along. -/
structure Buffer where
  id : ℕ
  isImage : Bool
deriving DecidableEq, Repr

/-- `leaf` is a node the rules do not look into, `zero` the constant of `vconst_like(0)`; the
    coordinates of an INDEX are a chain of `coord` nodes.  A LOAD has an alternative exactly
    when it has a gate. -/
inductive Expr where
  | leaf (id : ℕ) (dtype : ScalarDType)
  | invalid
  | zero (dtype : ScalarDType)
  | not (src : Expr)
  | cast (src : Expr) (dtype : ScalarDType)
  | where_ (gate a b : Expr) (dtype : ScalarDType)
  | endCoords
  | coord (first rest : Expr)
  | index (buffer : Buffer) (indices : Expr) (dtype : ScalarDType)
  | shrink (src : Buffer) (offsets sizes : Expr) (dtype : ScalarDType)
  | load (access : Expr)
  | gatedLoad (access alt gate : Expr)
deriving DecidableEq, Repr

/-- A STORE, with its gate if it has one. -/
structure Store where
  index : Expr
  value : Expr
  gate : Option Expr
deriving DecidableEq, Repr

namespace Expr

def dtype : Expr → ScalarDType
  | leaf _ d => d
  | invalid => .bool
  | zero d => d
  | not src => src.dtype
  | cast _ d => d
  | where_ _ _ _ d => d
  | endCoords | coord _ _ => .void
  | index _ _ d => d
  | shrink _ _ _ d => d
  | load access => access.dtype
  | gatedLoad access _ _ => access.dtype

/-- `UOp::cast`: no node when the dtype is the one the source has. -/
def castTo (src : Expr) (d : ScalarDType) : Expr := if src.dtype = d then src else cast src d

end Expr

open Gater.Expr

/-! ## Rules -/

def validIndex : Expr → Option (Expr × Expr)
  | where_ gate clean .invalid _ => some (gate, clean)
  | _ => none

/-- `image_gate`: the two-coordinate form, gated by one shared condition. -/
def imageGate (buffer : Buffer) : Expr → Option (Expr × Expr)
  | coord y (coord x .endCoords) =>
    if buffer.isImage then do
      let (gateY, indexY) ← validIndex y
      let (gateX, indexX) ← validIndex x
      if gateY = gateX then some (gateY, coord indexY (coord indexX .endCoords)) else none
    else none
  | _ => none

/-- `indices.first().and_then(valid_index)`, with the cleaned coordinates. -/
def firstGate : Expr → Option (Expr × Expr)
  | coord first rest => do
    let (gate, clean) ← validIndex first
    some (gate, coord clean rest)
  | _ => none

/-- The access of a rule's INDEX or SHRINK without its gate, and the gate. -/
def moveImage : Expr → Option (Expr × Expr)
  | index buffer indices d => do
    let (gate, indices) ← imageGate buffer indices
    some (gate, index buffer indices d)
  | _ => none

def moveIndex : Expr → Option (Expr × Expr)
  | index buffer indices d => do
    let (gate, indices) ← firstGate indices
    some (gate, index buffer indices d)
  | _ => none

def moveShrink : Expr → Option (Expr × Expr)
  | shrink src offsets sizes d => do
    let (gate, offsets) ← validIndex offsets
    some (gate, shrink src offsets sizes d)
  | _ => none

/-- `move_image_load`: the rebuilt load is cast back to the dtype of the old one. -/
def moveImageLoad : Expr → Option Expr
  | load access => do
    let (gate, clean) ← moveImage access
    some ((gatedLoad clean (zero access.dtype) gate).castTo access.dtype)
  | _ => none

/-- `move_load` and `move_shrink_load`, by how they clean the access. -/
def moveLoadBy (move : Expr → Option (Expr × Expr)) : Expr → Option Expr
  | load access => do
    let (gate, clean) ← move access
    some (gatedLoad clean (zero access.dtype) gate)
  | _ => none

def moveLoad : Expr → Option Expr := moveLoadBy moveIndex

def moveShrinkLoad : Expr → Option Expr := moveLoadBy moveShrink

/-- `move_image_store`, `move_store` and `move_shrink_store`, by how they clean the access. -/
def moveStoreBy (move : Expr → Option (Expr × Expr)) (s : Store) : Option Store :=
  match s.gate with
  | some _ => none
  | none => do
    let (gate, clean) ← move s.index
    some ⟨clean, s.value, some gate⟩

def moveImageStore : Store → Option Store := moveStoreBy moveImage

def moveStore : Store → Option Store := moveStoreBy moveIndex

def moveShrinkStore : Store → Option Store := moveStoreBy moveShrink

/-- The node itself, or the source of the cast that it is. -/
def stripCast : Expr → Expr
  | .cast src _ => src
  | e => e

/-- Whether a load under `loadGate` is the branch of a WHERE on `gate`. -/
def gateMatches (loadGate gate : Expr) (inverted : Bool) : Bool :=
  if inverted then
    match loadGate with
    | .not inner => inner == gate
    | _ => false
  else loadGate == gate

/-- `gated_load`: the gated load under a branch of a WHERE, as access and gate. -/
def gatedLoadOf (value gate : Expr) (inverted : Bool) : Option (Expr × Expr) :=
  if gate.dtype = .bool then
    match stripCast value with
    | gatedLoad access _ loadGate =>
      if gateMatches loadGate gate inverted then some (access, loadGate) else none
    | _ => none
  else none

/-- The alternative that `move_where_load` puts on a load of dtype `d`. -/
def loadAlt (alt : Expr) (d : ScalarDType) : Expr :=
  match alt with
  | .invalid => zero d
  | .cast src _ => if src.dtype = d then src else alt.castTo d
  | _ => alt.castTo d

/-- `move_where_load`, where `value` and `alt` are the branches in the order of the rule. -/
def moveWhereLoad (gate value alt : Expr) (d : ScalarDType) (inverted : Bool) : Option Expr := do
  let (access, loadGate) ← gatedLoadOf value gate inverted
  some ((gatedLoad access (loadAlt alt access.dtype) loadGate).castTo d)

/-- The rules of `pm_move_gates_from_index` on LOAD and WHERE, in source order. -/
def moveGates (e : Expr) : Option Expr :=
  match e with
  | load _ => (moveImageLoad e).or ((moveLoad e).or (moveShrinkLoad e))
  | where_ gate a b d =>
    (moveWhereLoad gate a b d false).or (moveWhereLoad gate b a d true)
  | _ => none

/-- The rules of `pm_move_gates_from_index` on STORE, in source order. -/
def moveStoreGates (s : Store) : Option Store :=
  (moveImageStore s).or ((moveStore s).or (moveShrinkStore s))

/-! ## Values -/

/-- What values are: booleans, zeros, and the conversions between dtypes. -/
structure Semantics (α : Type) where
  truth : α → Bool
  ofBool : Bool → α
  truth_ofBool : ∀ b, truth (ofBool b) = b
  zero : ScalarDType → α
  cast : ScalarDType → ScalarDType → α → α
  cast_self : ∀ d v, cast d d v = v

/-- Where an access goes. -/
inductive Place (α : Type) where
  | element (buffer : Buffer) (coords : List α)
  | window (src : Buffer) (offset sizes : α)
deriving DecidableEq

/-- What a node denotes. -/
inductive Value (α : Type) where
  | invalid
  | scalar (v : α)
  | coords (vs : List α)
  | place (p : Place α)
deriving DecidableEq

/-- Values of the leaves, and the contents of memory. -/
structure Env (α : Type) where
  leaf : ℕ → α
  memory : Place α → α

variable {α : Type}

namespace Value

/-- An Invalid gate does not hold. -/
def truth (S : Semantics α) : Value α → Bool
  | scalar v => S.truth v
  | _ => false

def castBy (f : α → α) : Value α → Value α
  | scalar v => scalar (f v)
  | _ => invalid

def cons : Value α → Value α → Value α
  | scalar v, coords vs => coords (v :: vs)
  | _, _ => invalid

def element (buffer : Buffer) : Value α → Value α
  | coords vs => place (.element buffer vs)
  | _ => invalid

def window (src : Buffer) : Value α → Value α → Value α
  | scalar offset, scalar sizes => place (.window src offset sizes)
  | _, _ => invalid

/-- A load: a disabled access yields zero. -/
def loadFrom (memory : Place α → α) (zero : α) : Value α → Value α
  | place p => scalar (memory p)
  | _ => scalar zero

end Value

def Expr.eval (S : Semantics α) (E : Env α) : Expr → Value α
  | leaf id _ => .scalar (E.leaf id)
  | invalid => .invalid
  | zero d => .scalar (S.zero d)
  | not src => .scalar (S.ofBool (!(src.eval S E).truth S))
  | cast src d => (src.eval S E).castBy (S.cast src.dtype d)
  | where_ gate a b _ => if (gate.eval S E).truth S then a.eval S E else b.eval S E
  | endCoords => .coords []
  | coord first rest => (first.eval S E).cons (rest.eval S E)
  | index buffer indices _ => (indices.eval S E).element buffer
  | shrink src offsets sizes _ => (offsets.eval S E).window src (sizes.eval S E)
  | load access => (access.eval S E).loadFrom E.memory (S.zero access.dtype)
  | gatedLoad access alt gate =>
    if (gate.eval S E).truth S then (access.eval S E).loadFrom E.memory (S.zero access.dtype)
    else alt.eval S E

/-- The write a store makes, if it is enabled. -/
def Store.effect (S : Semantics α) (E : Env α) (s : Store) : Option (Place α × Value α) :=
  if s.gate.all fun gate => (gate.eval S E).truth S then
    match s.index.eval S E with
    | .place p => some (p, s.value.eval S E)
    | _ => none
  else none

/-! ## Typing -/

/-- The node denotes a value or is Invalid: it is no access and no coordinate list. -/
def Expr.IsValue : Expr → Prop
  | leaf _ _ | invalid | zero _ | not _ | load _ => True
  | cast src _ => src.IsValue
  | where_ _ a b _ => a.IsValue ∧ b.IsValue
  | gatedLoad _ alt _ => alt.IsValue
  | endCoords | coord _ _ | index _ _ _ | shrink _ _ _ _ => False

/-- A branch of a WHERE has the dtype of the WHERE or is the Invalid marker, as the kernel
    specification asks. -/
def BranchTyped (d : ScalarDType) (e : Expr) : Prop := e.IsValue ∧ (e = invalid ∨ e.dtype = d)

/-- The typing of a node the rules match on. -/
def Expr.WellTyped : Expr → Prop
  | where_ _ a b d => BranchTyped d a ∧ BranchTyped d b
  | _ => True

/-! ## Machine integers -/

/-- The integer and boolean dtypes; a cast to another dtype is not described. -/
def machineCast (d d' : ScalarDType) (v : ℤ) : ℤ :=
  if d = d' then v
  else
    match intType d' with
    | some t => Ir.castTo d' t v
    | none => v

def machine : Semantics ℤ where
  truth v := v != 0
  ofBool b := if b then 1 else 0
  truth_ofBool b := by cases b <;> rfl
  zero _ := 0
  cast := machineCast
  cast_self d v := by simp [machineCast]

end Svod.Late.Gater
