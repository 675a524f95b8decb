/-
  Svod.Tk.Nearest

  The bitonic networks of the nearest kernels (`tk/src/kernels/nearest.rs`).

  A register tile is a function of its row and its column; scores and indices
  are of linear orders, so a score is a number and the two zeros are one.
  `none` is a failed assertion of the builder.
-/

import Mathlib.Algebra.Order.Ring.Nat
import Mathlib.Data.Nat.Log

namespace Svod.Tk.Nearest

def isPowerOfTwo (n : ℕ) : Bool := n = 2 ^ n.log2

def nextPowerOfTwo (n : ℕ) : ℕ := 2 ^ Nat.clog 2 n

/-- The values of a tile, by row and column. -/
abbrev Tile (α : Type) := ℕ → ℕ → α

namespace Tile

variable {α : Type}

def where_ (pred : Tile Bool) (a b : Tile α) : Tile α :=
  fun row col => if pred row col then a row col else b row col

/-- `Kernel::flip` along the columns of a tile of `w`. -/
def flip (w mask : ℕ) (t : Tile α) : Option (Tile α) :=
  if 0 < mask ∧ w % nextPowerOfTwo (mask + 1) = 0 then some fun row col => t row (col ^^^ mask)
  else none

end Tile

/-- `[score, index]`. -/
structure Pair (σ ι : Type) where
  score : Tile σ
  index : Tile ι

variable {σ ι : Type}

namespace Pair

def where_ (pred : Tile Bool) (a b : Pair σ ι) : Pair σ ι :=
  ⟨Tile.where_ pred a.score b.score, Tile.where_ pred a.index b.index⟩

def flip (w mask : ℕ) (p : Pair σ ι) : Option (Pair σ ι) := do
  let score ← p.score.flip w mask
  let index ← p.index.flip w mask
  some ⟨score, index⟩

end Pair

/-- Whether bit `d` (a power of two) of each column is set. -/
def bit (d : ℕ) : Tile Bool := fun _ col => col / d - col / (2 * d) * 2 = 1

variable [LinearOrder σ] [LinearOrder ι]

/-- A lower score, or an equal one at a smaller index. -/
def before (a b : Pair σ ι) : Tile Bool := fun row col =>
  a.score row col < b.score row col ||
    (a.score row col = b.score row col && a.index row col < b.index row col)

/-- One pair of tiles ordered. -/
def orderTiles (w size apart : ℕ) (seq : List (Pair σ ι)) (t : ℕ) : Option (List (Pair σ ι)) := do
  let a ← seq[t]?
  let b ← seq[t ||| apart]?
  let first := before a b
  let lo := Pair.where_ first a b
  let hi := Pair.where_ first b a
  if t * w &&& size = 0 then some ((seq.set t lo).set (t ||| apart) hi)
  else some ((seq.set t hi).set (t ||| apart) lo)

/-- The columns of one tile ordered. -/
def orderColumns (w size d : ℕ) (x : Pair σ ι) (t : ℕ) : Option (Pair σ ι) := do
  let upper := bit d
  -- the later of a pair stays where bit `d` is set in an ascending block, clear in another
  let keepLast : Tile Bool :=
    if w ≤ size then
      if t * w &&& size = 0 then upper else fun row col => !upper row col
    else fun row col => upper row col != bit size row col
  let partner ← x.flip w d
  let ahead := before partner x
  some (Pair.where_ (fun row col => ahead row col != keepLast row col) partner x)

/-- Every element and its partner at distance `d` ordered. -/
def orderStage (w size d : ℕ) (seq : List (Pair σ ι)) : Option (List (Pair σ ι)) :=
  if w ≤ d then
    -- whole tiles apart: each pair once
    ((List.range seq.length).filter fun t => t &&& (d / w) = 0).foldlM
      (orderTiles w size (d / w)) seq
  else seq.zipIdx.mapM fun (x, t) => orderColumns w size d x t

/-- The distances from `d` down. -/
def orderBlock (w size d : ℕ) (seq : List (Pair σ ι)) : Option (List (Pair σ ι)) :=
  if d = 0 then some seq else (orderStage w size d seq).bind (orderBlock w size (d / 2))
termination_by d

def network (w : ℕ) (seq : List (Pair σ ι)) (sizes : List ℕ) : Option (List (Pair σ ι)) :=
  if isPowerOfTwo w && isPowerOfTwo seq.length then
    sizes.foldlM (fun seq size => orderBlock w size (size / 2) seq) seq
  else none

/-- The sizes doubling from two to `len`. -/
def doubling (len : ℕ) : List ℕ := (List.range' 1 len.log2).map (2 ^ ·)

/-- One pair of a queue against the list's slots. -/
def keepEarlier (w : ℕ) (list : List (Pair σ ι)) : Pair σ ι × ℕ → Option (List (Pair σ ι))
  | (q, t) => do
    let at_ := list.length - 1 - t
    let rev ← q.flip w (w - 1)
    let held ← list[at_]?
    some (list.set at_ (Pair.where_ (before held rev) held rev))

def queuedInto (w : ℕ) (list queue : List (Pair σ ι)) : Option (List (Pair σ ι)) := do
  let queue ← network w queue (doubling (queue.length * w))
  let list ← (queue.take list.length).zipIdx.foldlM (keepEarlier w) list
  network w list [list.length * w]

/-- The earlier and the later of a pair of tiles, the second reversed. -/
def orderReversed (w : ℕ) : Pair σ ι × Pair σ ι → Option (Pair σ ι × Pair σ ι)
  | (x, y) => do
    let rev ← y.flip w (w - 1)
    let first := before x rev
    some (Pair.where_ first x rev, Pair.where_ first rev x)

def merged (w : ℕ) (a b : List (Pair σ ι)) : Option (List (Pair σ ι) × List (Pair σ ι)) := do
  let pairs ← (a.zip b.reverse).mapM (orderReversed w)
  let lo ← network w (pairs.map Prod.fst) [a.length * w]
  let hi ← network w (pairs.map Prod.snd) [a.length * w]
  some (lo, hi)

end Svod.Tk.Nearest
