/-
  Svod.Device.ClikeKernarg

  Packing of kernel arguments for the C-like ABI (`ClikeKernargLayout` of
  `device/src/hcq.rs`).

  `pack` writes into a buffer of the caller, so its result stands beside the
  buffer it leaves; the outer `Option` is `none` for a slice or an index out of
  range, which panics.  A cursor is a natural number: a descriptor takes more
  bytes in memory than its argument does in the record, so no sum reaches
  `usize::MAX`.
-/

import Mathlib.Data.Bool.Count
import Svod.Device.Kernarg
import Svod.Lib.ByteBuffer
import Svod.Lib.CStruct
import Svod.Lib.MachineInt

namespace Svod.Device.ClikeKernarg

open Svod.Lib Svod.Lib.CStruct Svod.Device.Kernarg

/-! ## The layout -/

inductive AbiParamKind where
  | storage
  | scalar
deriving DecidableEq, Repr

def AbiParamKind.isStorage : AbiParamKind → Bool
  | .storage => true
  | .scalar => false

/-- The counts are those of the order, which only `fromAbi` sets. -/
structure ClikeKernargLayout where
  globals : ℕ
  vars : ℕ
  storageOrder : List Bool
  globals_eq : globals = storageOrder.count true
  vars_eq : vars = storageOrder.count false
deriving DecidableEq, Repr

theorem length_filter_storage (order : List Bool) :
    (order.filter fun storage => storage).length = order.count true := by
  rw [List.count_eq_countP, List.countP_eq_length_filter]
  congr 2
  funext storage
  cases storage <;> rfl

def ClikeKernargLayout.fromAbi (abi : List AbiParamKind) : ClikeKernargLayout :=
  let storageOrder := abi.map AbiParamKind.isStorage
  let globals := (storageOrder.filter fun storage => storage).length
  { globals
    vars := storageOrder.length - globals
    storageOrder
    globals_eq := length_filter_storage storageOrder
    vars_eq := by
      rw [show globals = storageOrder.count true from length_filter_storage storageOrder,
        ← List.count_true_add_count_false, Nat.add_sub_cancel_left] }

def width (storage : Bool) : ℕ := if storage then 8 else 4

def sizeFrom (cursor : ℕ) (storageOrder : List Bool) : ℕ :=
  storageOrder.foldl (fun cursor storage =>
    nextMultipleOf cursor (width storage) + width storage) cursor

def ClikeKernargLayout.packedSize (layout : ClikeKernargLayout) : ℕ :=
  sizeFrom 0 layout.storageOrder

/-! ## Packing -/

inductive Error where
  | programAbiMismatch (reason : String)
  | runtime (message : String)
deriving DecidableEq, Repr

/-- `v as i32`: the low 32 bits, as a signed integer. -/
def asI32 (v : Int64) : ℤ := wrapSigned 32 v.toInt

/-- `to_le_bytes` of an `i32`. -/
def i32LeBytes (x : ℤ) : List UInt8 := leBytes 4 (wrapUnsigned 32 x).toNat

structure PackState where
  dst : ByteBuffer
  global : ℕ
  var : ℕ
  cursor : ℕ

/-- One turn of the packing loop. -/
def packStep (globals : List UInt64) (vars : List Int64) (s : PackState) (storage : Bool) :
    Option PackState :=
  if storage then do
    let cursor := nextMultipleOf s.cursor 8
    let address ← globals[s.global]?
    let dst ← s.dst.write cursor (leBytes 8 address.toNat)
    some { s with dst, global := s.global + 1, cursor := cursor + 8 }
  else do
    let cursor := nextMultipleOf s.cursor 4
    let value ← vars[s.var]?
    let dst ← s.dst.write cursor (i32LeBytes (asI32 value))
    some { s with dst, var := s.var + 1, cursor := cursor + 4 }

/-- `dst[..needed].fill(0)`. -/
def fillZero (dst : ByteBuffer) (needed : ℕ) : Option ByteBuffer :=
  dst.write 0 (List.replicate needed 0)

def ClikeKernargLayout.pack (layout : ClikeKernargLayout) (dst : ByteBuffer)
    (globals : List UInt64) (vars : List Int64) : Option (Except Error ℕ × ByteBuffer) :=
  if globals.length ≠ layout.globals ∨ vars.length ≠ layout.vars then
    let (g, v) := (layout.globals, layout.vars)
    let (ga, va) := (globals.length, vars.length)
    some (.error (.programAbiMismatch
      s!"HCQ kernargs expected {g} globals/{v} vars, got {ga}/{va}"), dst)
  else
    let needed := layout.packedSize
    if dst.len < needed then
      let len := dst.len
      some (.error (.runtime s!"HCQ kernarg destination has {len} bytes, needs {needed}"), dst)
    else do
      let zeroed ← fillZero dst needed
      let s ← layout.storageOrder.foldlM (packStep globals vars)
        { dst := zeroed, global := 0, var := 0, cursor := 0 }
      some (.ok s.cursor, s.dst)

/-! ## The struct the kernel reads -/

inductive Argument where
  | address (a : ℕ)
  | value (v : ℤ)
deriving DecidableEq, Repr

/-- A pointer is 8 bytes and an `int` is 4, each aligned to its size. -/
def member (storage : Bool) : Member := { size := width storage, align := width storage }

/-- The arguments in the order of their parameters. -/
def arguments : List Bool → List UInt64 → List Int64 → List Argument
  | true :: order, g :: globals, vars => .address g.toNat :: arguments order globals vars
  | false :: order, globals, v :: vars => .value v.toInt :: arguments order globals vars
  | _, _, _ => []

def readMember (bytes : ℕ → UInt8) (storage : Bool) (off : ℕ) : Argument :=
  if storage then .address (leValue (slice bytes off 8))
  else .value (wrapSigned 32 (leValue (slice bytes off 4)))

def readStruct (bytes : ℕ → UInt8) (order : List Bool) (offs : List ℕ) : List Argument :=
  List.zipWith (readMember bytes) order offs

/-- The value is one of a 32-bit `int`. -/
def FitsI32 (v : Int64) : Prop := -2 ^ 31 ≤ v.toInt ∧ v.toInt < 2 ^ 31

instance (v : Int64) : Decidable (FitsI32 v) := inferInstanceAs (Decidable (_ ∧ _))

instance (vars : List Int64) : Decidable (∀ v ∈ vars, FitsI32 v) := List.decidableBAll FitsI32 vars

/-- There is one argument for each parameter. -/
def CountsMatch (layout : ClikeKernargLayout) (globals : List UInt64) (vars : List Int64) : Prop :=
  globals.length = layout.globals ∧ vars.length = layout.vars

instance (layout : ClikeKernargLayout) (globals : List UInt64) (vars : List Int64) :
    Decidable (CountsMatch layout globals vars) := inferInstanceAs (Decidable (_ ∧ _))

/-- `after` is `before` with the record in it: the members lie apart and read back as the
    arguments, the padding is zero, and nothing behind the struct has changed. -/
def Holding (order : List Bool) (args : List Argument) (before after : ByteBuffer) (n : ℕ) : Prop :=
  ∃ offs, Laid 0 (order.map member) offs n ∧ after.len = before.len ∧
    ((order.map member).zip offs).Pairwise (fun f g => f.2 + f.1.size ≤ g.2) ∧
    readStruct after.get order offs = args ∧
    (∀ i < n, ¬ Holds (order.map member) offs i → after.get i = 0) ∧
    ∀ i, n ≤ i → after.get i = before.get i

/-- What packing promises: an error that leaves the destination alone, exactly where the arguments
    are not those of the struct, and else the struct. -/
def PackMeets (layout : ClikeKernargLayout) (dst : ByteBuffer) (globals : List UInt64)
    (vars : List Int64) : Prop :=
  if CountsMatch layout globals vars ∧ layout.packedSize ≤ dst.len ∧ ∀ v ∈ vars, FitsI32 v then
    ∃ after, layout.pack dst globals vars = some (.ok layout.packedSize, after) ∧
      Holding layout.storageOrder (arguments layout.storageOrder globals vars) dst after
        layout.packedSize
  else ∃ e, layout.pack dst globals vars = some (.error e, dst)

end Svod.Device.ClikeKernarg
