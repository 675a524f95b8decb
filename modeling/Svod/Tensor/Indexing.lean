/-
  Svod.Tensor.Indexing

  Gather and scatter by one-hot masks (`tensor/src/indexing.rs`).

  The position an index names is found by comparing the index with a counter on a
  new last axis; transposes bring that axis to the place of the indexed one.
-/

import Svod.Tensor.Arange
import Svod.Tensor.Concat

namespace Svod.Tensor.Nd

open Svod.Lib Svod.Ir

variable {α : Type} {τ ι : IntType}

/-- `ScatterReduction`. -/
inductive ScatterReduction
  | sum
  | prod
  | amax
  | amin
  deriving DecidableEq, Repr

/-! ## Gather -/

/-- `gather`. -/
def gather [Add α] [Zero α] (t : NdArray α) (dim : ℤ) (index : NdArray (TypedInt ι)) :
    Except ErrorKind (NdArray α) := do
  let ndim := t.shape.length
  let dim ← normalizeAxis dim ndim
  ensure (index.shape.length = ndim)
    (ErrorKind.shapeMismatch "gather" (toString ndim ++ "D")
      (toString index.shape.length ++ "D index"))
  ensure (∀ x ∈ (t.shape.zip index.shape).zipIdx, x.2 = dim ∨ x.1.2 ≤ x.1.1)
    (ErrorKind.shapeMismatch "gather" "self[d] >= index[d] for d != dim"
      ("self=" ++ toString t.shape ++ ", index=" ++ toString index.shape))
  -- shrink to the index's size on every other axis
  let x ← tryShrink t ((List.range ndim).map fun d =>
    if d = dim then .none else .sint 0 (index.shape.getD d 0))
  let x ← tryUnsqueeze x (-1)
  let x ← tryTranspose x (-1) dim
  let arange ← indexArange (t.shape.getD dim 0) ι
  let index ← tryUnsqueeze index (-1)
  let mask ← tryEq (cast (·.val) index) arange
  let selected ← where_ x mask (const 0)
  sum selected (.single (-1))

/-- `one_hot_along_dim`. -/
def oneHotAlongDim (t : NdArray (TypedInt ι)) (numClasses : ℕ) (dim : ℤ) :
    Except ErrorKind (NdArray Bool) := do
  let ndim := t.shape.length
  let normDim ← normalizeAxis dim ndim
  let offset := ndim - normDim - 1
  let arange ← indexArange numClasses ι
  let arange ← tryReshape arange ((numClasses :: List.replicate offset 1).map .const)
  tryEq (cast (·.val) t) arange

/-! ## Scatter -/

/-- `_pre_scatter`: the source and the mask of each slot of the index, the slots on the last
    axis. -/
def preScatter [Zero α] (t : NdArray α) (dim : ℤ) (index : NdArray (TypedInt ι))
    (src : NdArray α) : Except ErrorKind (NdArray α × NdArray Bool) := do
  let selfDims := t.shape
  let indexDims := index.shape
  let srcDims := src.shape
  let ndim := selfDims.length
  let dim ← normalizeAxis dim ndim
  ensure (indexDims.length = ndim ∧ srcDims.length = ndim)
    (ErrorKind.shapeMismatch "scatter" (toString ndim ++ "D")
      ("index=" ++ toString indexDims.length ++ "D, src=" ++ toString srcDims.length ++ "D"))
  ensure (∀ x ∈ ((selfDims.zip indexDims).zip srcDims).zipIdx,
      (x.2 = dim ∨ x.1.1.2 ≤ x.1.1.1) ∧ x.1.1.2 ≤ x.1.2)
    (ErrorKind.shapeMismatch "scatter" "valid scatter shape constraints"
      ("self=" ++ toString selfDims ++ ", index=" ++ toString indexDims ++ ", src="
        ++ toString srcDims))
  let n := selfDims.getD dim 0
  -- shrink src to index shape
  let src ← tryShrink src (indexDims.map fun d : ℕ => .isize 0 d)
  let src ← tryUnsqueeze src (-1)
  let src ← tryExpand src ((indexDims ++ [n]).map .const)
  let src ← tryTranspose src (-1) dim
  let mask ← tryUnsqueeze index (-1)
  let mask ← oneHotAlongDim mask n (-1)
  let mask ← tryTranspose mask (-1) dim
  -- pad both to self.shape on non-dim axes
  let padding := (List.range ndim).map fun d =>
    ((0 : ℤ), max ((selfDims.getD d 0 : ℤ) - src.shape.getD d 0) 0)
  if padding.any (0 < ·.2) then
    let src ← tryPad src padding
    let mask ← @tryPad Bool ⟨false⟩ mask padding
    return (src, mask)
  else return (src, mask)

/-- One slice of `masked_setitem`: last-writer-wins. -/
def overwrite (acc slice : NdArray Bool × NdArray α) :
    Except ErrorKind (NdArray Bool × NdArray α) := do
  let accVals ← where_ slice.2 slice.1 acc.2
  let accMask ← tryBitor acc.1 slice.1
  return (accMask, accVals)

/-- The slices of `masked_setitem` along one axis, folded. -/
def foldAxis (acc : NdArray Bool × NdArray α) (dim : ℤ) :
    Except ErrorKind (NdArray Bool × NdArray α) := do
  let (mask, values) := acc
  let normDim ← normalizeAxis dim mask.shape.length
  let ones := List.replicate (mask.shape.getD normDim 0) 1
  let maskSlices ← split mask ones dim
  let valSlices ← split values ones dim
  match maskSlices.zip valSlices with
  | [] => throw (ErrorKind.panicked "index out of bounds: the len is 0 but the index is 0")
  | first :: rest => rest.foldlM overwrite first

/-- `masked_setitem`. -/
def maskedSetitem (target values : NdArray α) (mask : NdArray Bool) (axes : List ℤ) :
    Except ErrorKind (NdArray α) := do
  -- reduce repeated indices
  let (mask, values) ← axes.reverse.foldlM foldAxis (mask, values)
  -- squeeze reduced axes
  let mask ← axes.reverse.foldlM trySqueeze mask
  let values ← axes.reverse.foldlM trySqueeze values
  where_ values mask target

/-- `scatter`. -/
def scatter [Zero α] (t : NdArray α) (dim : ℤ) (index : NdArray (TypedInt ι)) (src : NdArray α) :
    Except ErrorKind (NdArray α) := do
  let (srcP, maskP) ← preScatter t dim index src
  maskedSetitem t srcP maskP [-1]

/-- `self_or` of `scatter_reduce`. -/
def selfOr (t : NdArray α) (maskP : NdArray Bool) (includeSelf : Bool) (identityVal : α) :
    Except ErrorKind (NdArray α) := do
  if includeSelf then return t
  else
    let hit ← any maskP (.single (-1))
    let noHit ← logicalNot hit
    where_ t noHit (const identityVal)

/-- `scatter_reduce`, of integers. -/
def scatterReduce (t : NdArray (TypedInt τ)) (dim : ℤ) (index : NdArray (TypedInt ι))
    (src : NdArray (TypedInt τ)) (reduce : ScatterReduction) (includeSelf : Bool) :
    Except ErrorKind (NdArray (TypedInt τ)) := do
  let (srcP, maskP) ← preScatter t dim index src
  match reduce with
  | .sum =>
    let masked ← where_ srcP maskP (const 0)
    let reduced ← sum masked (.single (-1))
    let base ← selfOr t maskP includeSelf 0
    tryAdd reduced base
  | .prod =>
    let masked ← where_ srcP maskP (const 1)
    let reduced ← prod masked (.single (-1))
    let base ← selfOr t maskP includeSelf 1
    tryMul reduced base
  | .amax =>
    let minVal : TypedInt τ := .ofInt (-2 ^ 63)
    let masked ← where_ srcP maskP (const minVal)
    let reduced ← max_ masked (.single (-1))
    let base ← selfOr t maskP includeSelf minVal
    maximum reduced base
  | .amin =>
    let maxVal : TypedInt τ := .ofInt (2 ^ 63 - 1)
    let masked ← where_ srcP maskP (const maxVal)
    let reduced ← min_ masked (.single (-1))
    let base ← selfOr t maskP includeSelf maxVal
    minimum reduced base

/-! ## Selection -/

/-- `masked_select`; the number of selected elements is read back from the device. -/
def maskedSelect [Add α] [Zero α] (t : NdArray α) (mask : NdArray Bool) :
    Except ErrorKind (NdArray α) := do
  let x ← flatten t
  let maskBroadcast ← broadcastTo mask t.shape
  let maskFlat ← flatten maskBroadcast
  let maskCumsum ← cumsum (cast (fun b => if b then (1 : TypedInt int64) else 0) maskFlat) 0
  let n := maskFlat.shape.prod
  if n = 0 then return zeros [0]
  let countT ← tryShrink maskCumsum [.isize (n - 1 : ℕ) n]
  let count := (countT.get [0]).val.toNat
  if count = 0 then return zeros [0]
  -- build gather indices
  let zeros := full [count] (0 : TypedInt int64)
  let ones := full [n] 1
  let histogram ← scatterReduce zeros 0 maskCumsum ones .sum false
  let idxs ← cumsum histogram 0
  gather x 0 idxs

/-- One coordinate of the selected positions. -/
def coordinate (selected : NdArray (TypedInt int64)) (dims : List ℕ) (axis : ℕ) :
    Except ErrorKind (NdArray (TypedInt int32)) := do
  let stride := (dims.drop (axis + 1)).prod
  let coord ← if stride = 1 then pure selected else tryDiv selected (const (.ofInt stride))
  let coord ← if axis ≠ 0 then tryMod coord (const (.ofInt (dims.getD axis 0))) else pure coord
  return cast (fun x => .ofInt x.val) coord

/-- `nonzero`. -/
def nonzero [Zero α] [DecidableEq α] (t : NdArray α) :
    Except ErrorKind (NdArray (TypedInt int32)) := do
  let dims := t.shape
  let ndim := dims.length
  let numel := dims.prod
  let isNonzero ← tryNe t (const 0)
  let mask ← flatten isNonzero
  if numel = 0 then tryReshape (zeros [0]) ([0, ndim].map .const)
  else
    let flatIndices ← arangeWithDtype int64 0 numel
    let selected ← maskedSelect flatIndices mask
    if ndim = 0 then tryReshape (zeros [0]) ([selected.shape.prod, 0].map .const)
    else
      let coords ← (List.range ndim).mapM (coordinate selected dims)
      stack coords (-1)

/-! ## Indices of several axes -/

/-- The strides of the indexed axes, the last one the fastest. -/
def tupleStrides (depth : List ℕ) : List ℕ :=
  (List.range depth.length).map fun k => (depth.drop (k + 1)).prod

/-- Component `k` of the index tuples. -/
def component (indices : NdArray (TypedInt ι)) (k : ℕ) :
    Except ErrorKind (NdArray (TypedInt ι)) := do
  let idxDims := indices.shape
  let slice ← tryShrink indices ((idxDims.map fun s : ℕ => ShrinkRange.isize 0 s).set
    (idxDims.length - 1) (.isize k (k + 1 : ℕ)))
  trySqueeze slice (-1)

/-- One step of the flattening: a component, times its stride. -/
def addComponent (indices : NdArray (TypedInt ι)) (flatIdx : NdArray (TypedInt int64))
    (x : ℕ × ℕ) : Except ErrorKind (NdArray (TypedInt int64)) := do
  let idxK ← component indices x.2
  let scaled ← tryMul (cast (fun v => TypedInt.ofInt v.val) idxK) (const (.ofInt x.1))
  tryAdd flatIdx scaled

/-- The flat position of each index tuple. -/
def flattenTuples (indices : NdArray (TypedInt ι)) (strides : List ℕ) :
    Except ErrorKind (NdArray (TypedInt int64)) :=
  strides.zipIdx.foldlM (addComponent indices) (const 0)

/-- The last extent of an index. -/
def lastExtent (op : String) (dims : List ℕ) : Except ErrorKind ℕ :=
  match dims.getLast? with
  | some d => .ok d
  | none => .error (.ndimMinimum op 1 dims.length)

/-- The panic of a slice past the end of the dimensions. -/
def sliceDims (n len : ℕ) : Except ErrorKind Unit :=
  ensure (n ≤ len) (.panicked ("range end index " ++ toString n ++ " out of range for slice of length "
    ++ toString len))

/-- `as i32`, of flat positions. -/
def castInt32 (t : NdArray (TypedInt int64)) : NdArray (TypedInt int32) :=
  cast (fun v => .ofInt v.val) t

/-- `gather_nd`. -/
def gatherNd [Add α] [Zero α] (t : NdArray α) (indices : NdArray (TypedInt ι)) (batchDims : ℕ) :
    Except ErrorKind (NdArray α) := do
  let xDims := t.shape
  let idxDims := indices.shape
  let lastIdxDim ← lastExtent "gather_nd" idxDims
  if batchDims = 0 then
    sliceDims lastIdxDim xDims.length
    let inner := (xDims.drop lastIdxDim).prod
    let outer := (xDims.take lastIdxDim).prod
    let flatIdx ← flattenTuples indices (tupleStrides (xDims.take lastIdxDim))
    let xFlat ← tryReshape t ([outer, inner].map .const)
    let gatherOuter := idxDims.dropLast
    let numGathers := gatherOuter.prod
    let column ← tryReshape flatIdx ([numGathers, 1].map .const)
    let flatIdx2d ← tryExpand column ([numGathers, inner].map .const)
    -- `gather` gives the index one axis more, by a reshape that multiplies its extents
    ensure (Readable [numGathers, inner]) .shapeUnknown
    let result ← gather xFlat 0 (castInt32 flatIdx2d)
    tryReshape result ((gatherOuter ++ xDims.drop lastIdxDim).map .const)
  else
    sliceDims batchDims xDims.length
    sliceDims batchDims idxDims.length
    let batchSize := (xDims.take batchDims).prod
    let innerX := xDims.drop batchDims
    let innerIdx := idxDims.drop batchDims
    let xFlat ← tryReshape t ((batchSize :: innerX).map .const)
    let idxFlat ← tryReshape indices ((batchSize :: innerIdx).map .const)
    let lastInner ← lastExtent "gather_nd" innerIdx
    sliceDims lastInner innerX.length
    let flatIdx ← flattenTuples idxFlat (tupleStrides (innerX.take lastInner))
    -- each batch starts at its own offset
    let batchStride := (innerX.take lastInner).prod
    let batches ← arange 0 batchSize
    let batchOffsetArr ← tryMul (cast (fun v => TypedInt.ofInt v.val) batches)
      (full [1] (.ofInt batchStride))
    let gatherInner := innerIdx.dropLast.prod
    let flatIdx ← tryReshape flatIdx ([batchSize, gatherInner].map .const)
    let offsetColumn ← tryReshape batchOffsetArr ([batchSize, 1].map .const)
    let batchOffset ← tryExpand offsetColumn ([batchSize, gatherInner].map .const)
    let flatIdx ← tryAdd flatIdx batchOffset
    let remaining := (innerX.drop lastInner).prod
    let x2d ← tryReshape xFlat ([batchSize * batchStride, remaining].map .const)
    let column ← tryReshape flatIdx ([batchSize * gatherInner, 1].map .const)
    let fi ← tryExpand column ([batchSize * gatherInner, remaining].map .const)
    ensure (Readable [batchSize * gatherInner, remaining]) .shapeUnknown
    let result ← gather x2d 0 (castInt32 fi)
    tryReshape result
      ((xDims.take batchDims ++ innerIdx.dropLast ++ innerX.drop lastInner).map .const)

/-- `scatter_nd`. -/
def scatterNd (t : NdArray (TypedInt τ)) (indices : NdArray (TypedInt ι))
    (updates : NdArray (TypedInt τ)) (reduction : Option ScatterReduction) :
    Except ErrorKind (NdArray (TypedInt τ)) := do
  let xDims := t.shape
  let lastIdxDim ← lastExtent "scatter_nd" indices.shape
  sliceDims lastIdxDim xDims.length
  let inner := (xDims.drop lastIdxDim).prod
  if inner = 0 then throw (ErrorKind.panicked "attempt to divide by zero")
  let outer := xDims.prod / inner
  let xFlat ← tryReshape t ([outer, inner].map .const)
  let flatIdx ← flattenTuples indices (tupleStrides (xDims.take lastIdxDim))
  let updOuter := (updates.shape.take (updates.shape.length - (xDims.length - lastIdxDim))).prod
  let updFlat ← tryReshape updates ([updOuter, inner].map .const)
  let column ← tryReshape flatIdx ([updOuter, 1].map .const)
  let flatIdx2d ← tryExpand column ([updOuter, inner].map .const)
  ensure (Readable [updOuter, inner]) .shapeUnknown
  let result ← match reduction with
    | none => scatter xFlat 0 (castInt32 flatIdx2d) updFlat
    | some reduce => scatterReduce xFlat 0 (castInt32 flatIdx2d) updFlat reduce true
  tryReshape result (xDims.map .const)

end Svod.Tensor.Nd
