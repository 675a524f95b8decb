/-
  Svod.Tensor.Pool

  Sliding windows and their adjoint (`tensor/src/nn/pool.rs`): `pool` and
  `col2im`, on arrays of concrete shape.

  Both are chains of shape operations with one entry for each spatial axis, so
  the parameters of an axis are kept together in a record.
-/

import Svod.Tensor.ShapeOps

namespace Svod.Tensor.Nd

open Svod.Lib Svod.Ir

variable {α : Type}

/-- `SInt::ceildiv`, of constants. -/
def ceildiv (a b : ℕ) : ℕ := (a + b - 1) / b

/-! ## Windows -/

/-- The parameters of one spatial axis. -/
structure PoolAxis where
  /-- Extent of the input. -/
  i : ℕ
  kernel : ℕ
  stride : ℕ
  dilation : ℕ
deriving DecidableEq, Repr

namespace PoolAxis

/-- Number of windows, `o_`. -/
def o (a : PoolAxis) : ℕ := ceildiv (a.i - a.dilation * (a.kernel - 1)) a.stride

/-- Fold factor, `f_`. -/
def f (a : PoolAxis) : ℕ :=
  max 1 (ceildiv (max (a.o * a.stride) a.dilation - a.dilation) a.i)

/-- Distance between the rows of two kernel positions after the repeat. -/
def row (a : PoolAxis) : ℕ := a.i * a.f + a.dilation

/-- The extent of the repeated input. -/
def repeated (a : PoolAxis) : ℕ := ceildiv (a.kernel * a.row) a.i * a.i

/-- The dilated kernel fits the input. -/
def Fits (a : PoolAxis) : Prop := a.dilation * (a.kernel - 1) < a.i

instance (a : PoolAxis) : Decidable a.Fits := inferInstanceAs (Decidable (_ < _))

end PoolAxis

/-- The spatial axes of a call: the last `kernel.len()` axes of the input. -/
def poolAxes (shape kernel stride dilation : List ℕ) : List PoolAxis :=
  (List.range kernel.length).map fun j =>
    ⟨shape.getD (shape.length - kernel.length + j) 0, kernel.getD j 0, stride.getD j 0,
      dilation.getD j 0⟩

/-- Steps 1 to 7 of `pool`, for an input whose batch dimensions are `batch`: the kernel and the
    output position of each axis, side by side. -/
def poolSplit (t : NdArray α) (batch : List ℕ) (axes : List PoolAxis) :
    Except ErrorKind (NdArray α) := do
  let noop := List.replicate batch.length ShrinkRange.none
  -- repeat
  let x ← repeatAxes t
    (List.replicate batch.length 1 ++ axes.map fun a => ceildiv (a.kernel * a.row) a.i)
  -- shrink to exact needed size
  let x ← tryShrink x (noop ++ axes.flatMap fun a => [.sint 0 (a.kernel * a.row)])
  -- reshape to interleave kernel and spatial dims
  let x ← tryReshape x ((batch ++ axes.flatMap fun a => [a.kernel, a.row]).map .const)
  -- shrink for stride
  let x ← tryShrink x
    (noop ++ axes.flatMap fun a => [.sint 0 a.kernel, .sint 0 (a.o * a.stride)])
  -- reshape to separate stride
  let x ← tryReshape x ((batch ++ axes.flatMap fun a => [a.kernel, a.o, a.stride]).map .const)
  -- shrink stride dim to 1
  let x ← tryShrink x
    (noop ++ axes.flatMap fun a => [.sint 0 a.kernel, .sint 0 a.o, .sint 0 1])
  -- reshape to collapse stride dim
  tryReshape x ((batch ++ axes.flatMap fun a => [a.kernel, a.o]).map .const)

/-- The movement operations of `pool`: step 8 moves the kernel dimensions to the end. -/
def poolSteps (t : NdArray α) (batch : List ℕ) (axes : List PoolAxis) :
    Except ErrorKind (NdArray α) := do
  let x ← poolSplit t batch axes
  tryPermute x
    ((List.range batch.length ++ (List.range axes.length).map (batch.length + · * 2 + 1)
      ++ (List.range axes.length).map (batch.length + · * 2)).map (↑))

/-- `pool`. -/
def pool (t : NdArray α) (kernel stride dilation : List ℕ) : Except ErrorKind (NdArray α) := do
  let ndim := t.shape.length
  let nSpatial := kernel.length
  ensure (nSpatial ≤ ndim)
    (ErrorKind.irConstruction s!"can't pool {ndim}D with {nSpatial}D kernel")
  let nStride := stride.length
  ensure (nSpatial = nStride)
    (ErrorKind.irConstruction s!"kernel/stride length mismatch: {nSpatial} vs {nStride}")
  let nDilation := dilation.length
  ensure (nSpatial = nDilation)
    (ErrorKind.irConstruction s!"kernel/dilation length mismatch: {nSpatial} vs {nDilation}")
  let axes := poolAxes t.shape kernel stride dilation
  axes.forM fun a => do
    let kernel := a.kernel
    let dilated := a.dilation * (a.kernel - 1) + 1
    let i := a.i
    ensure a.Fits
      (ErrorKind.irConstruction s!"kernel size {kernel} (dilated {dilated}) > input size {i}")
  poolSteps t (t.shape.take (ndim - nSpatial)) axes

/-! ## Columns to image -/

/-- The parameters of one spatial axis of `col2im`. -/
structure ColAxis where
  image : ℕ
  block : ℕ
  stride : ℕ
  dilation : ℕ
  padBefore : ℤ
  padAfter : ℤ
deriving DecidableEq, Repr

namespace ColAxis

/-- `padded_img`. -/
def padded (a : ColAxis) : ℕ := (a.image + a.padBefore + a.padAfter).toNat

/-- `effective_k`. -/
def effectiveK (a : ColAxis) : ℕ := a.dilation * (a.block - 1) + 1

/-- Number of sliding positions, `l_spatial`. -/
def positions (a : ColAxis) : ℕ := (a.padded - a.effectiveK) / a.stride + 1

/-- Length of a placed slice. -/
def width (a : ColAxis) : ℕ := (a.positions - 1) * a.stride + 1 + (a.block - 1) * a.dilation

end ColAxis

/-- The spatial axes of a call, with its defaults. -/
def colAxes (imageShape blockShape : List ℕ) (strides : Option (List ℕ))
    (pads : Option (List (ℤ × ℤ))) (dilations : Option (List ℕ)) : List ColAxis :=
  let n := imageShape.length
  let strides := strides.getD (List.replicate n 1)
  let pads := pads.getD (List.replicate n (0, 0))
  let dilations := dilations.getD (List.replicate n 1)
  (List.range n).map fun j =>
    ⟨imageShape.getD j 0, blockShape.getD j 0, strides.getD j 0, dilations.getD j 0,
      (pads.getD j (0, 0)).1, (pads.getD j (0, 0)).2⟩

/-- The kernel position of a flat index, from the last axis to the first. -/
def unravelBlock (blockShape : List ℕ) (be : ℕ) : List ℕ :=
  (blockShape.foldr (fun b s => (s.2 % b :: s.1, s.2 / b)) (([] : List ℕ), be)).1

/-- Stride dilation of one axis: `stride - 1` zeros between the elements. -/
def dilateAxis [Zero α] (slice : NdArray α) (dim l s : ℕ) : Except ErrorKind (NdArray α) := do
  if 1 < s then
    let ndim := slice.shape.length
    let sh := slice.shape.insertIdx (dim + 1) 1
    let x ← tryReshape slice (sh.map .const)
    let x ← tryPad x ((List.replicate (ndim + 1) ((0 : ℤ), (0 : ℤ))).set (dim + 1) (0, (s - 1 : ℕ)))
    let x ← tryReshape x (((sh.set dim (l * s)).eraseIdx (dim + 1)).map .const)
    tryShrink x ((x.shape.map fun d : ℕ => .isize 0 d).set dim (.isize 0 ((l - 1) * s + 1 : ℕ)))
  else return slice

/-- The offset of a kernel position on one axis. -/
def offsetAxis [Zero α] (slice : NdArray α) (dim left right : ℕ) :
    Except ErrorKind (NdArray α) :=
  if 0 < left ∨ 0 < right then
    tryPad slice ((List.replicate slice.shape.length ((0 : ℤ), (0 : ℤ))).set dim (left, right))
  else .ok slice

/-- One spatial axis of a slice: dilation by the stride, then padding to the kernel position. -/
def placeAxis [Zero α] (slice : NdArray α) (x : (ColAxis × ℕ) × ℕ) :
    Except ErrorKind (NdArray α) := do
  let ((a, k), j) := x
  let dilated ← dilateAxis slice (1 + j) a.positions a.stride
  offsetAxis dilated (1 + j) (k * a.dilation) ((a.block - 1 - k) * a.dilation)

/-- The slice of one kernel position, placed in the padded image. -/
def col2imSlice [Zero α] (data : NdArray α) (nc : ℕ) (axes : List ColAxis) (kpos : List ℕ) :
    Except ErrorKind (NdArray α) := do
  let slice ← tryShrink data
    (.isize 0 nc :: (kpos.map fun k : ℕ => .isize k (k + 1))
      ++ axes.map fun a => .isize 0 a.positions)
  let slice ← tryReshape slice ((nc :: axes.map (·.positions)).map .const)
  (axes.zip kpos).zipIdx.foldlM placeAxis slice

/-- `Tensor::full`, of zeros. -/
def zeros [Zero α] (shape : List ℕ) : NdArray α := ⟨shape, fun _ => 0⟩

/-- The shapes a call reads back: the columns, the image, and a slice after each dilation. -/
def col2imShapes (axes : List ColAxis) (blockShape imageShape : List ℕ) (n c : ℕ) :
    List (List ℕ) :=
  (n * c :: blockShape ++ axes.map (·.positions)) :: (n :: c :: imageShape) ::
    (axes.zipIdx.filter fun x => 1 < x.1.stride).map fun x =>
      n * c :: (axes.take x.2).map (·.width) ++
        x.1.positions * x.1.stride :: (axes.drop (x.2 + 1)).map (·.positions)

/-- `col2im`. -/
def col2im [AddCommMonoid α] (t : NdArray α) (imageShape blockShape : List ℕ)
    (strides : Option (List ℕ)) (pads : Option (List (ℤ × ℤ))) (dilations : Option (List ℕ)) :
    Except ErrorKind (NdArray α) := do
  let axes := colAxes imageShape blockShape strides pads dilations
  let n := t.shape.getD 0 0
  let cTimesBl := t.shape.getD 1 0
  let bl := blockShape.prod
  ensure (bl ∣ cTimesBl)
    (ErrorKind.divisibility "col2im" "C*block_size" cTimesBl "block_size" bl)
  let c := cTimesBl / bl
  let nc := n * c
  -- the steps below read these shapes; a failure of any fails the call
  ensure (∀ shape ∈ col2imShapes axes blockShape imageShape n c, Readable shape)
    ErrorKind.shapeUnknown
  let data ← tryReshape t ((nc :: blockShape ++ axes.map (·.positions)).map .const)
  -- one slice for each kernel position, added in the padded image
  let result ← (List.range bl).foldlM
    (fun result be => do
      let slice ← col2imSlice data nc axes (unravelBlock blockShape be)
      tryAdd result slice)
    (zeros (nc :: axes.map (·.padded)))
  let result ← tryShrink result
    (.isize 0 nc :: axes.map fun a => .isize a.padBefore (a.padBefore + a.image))
  tryReshape result ((n :: c :: imageShape).map .const)

end Svod.Tensor.Nd
