/-
  Svod.Lib.ByteBuffer

  A buffer of bytes of a fixed length, read and written in slices, and numbers
  stored in it with the low byte first.

  A slice that leaves the buffer is refused.  A write changes its own slice
  only.
-/

import Mathlib.Algebra.Order.Ring.Nat
import Mathlib.Data.List.OfFn

namespace Svod.Lib

/-! ## Numbers as bytes -/

/-- The `n` low bytes of a number, low byte first. -/
def leBytes : ℕ → ℕ → List UInt8
  | 0, _ => []
  | n + 1, v => UInt8.ofNat v :: leBytes n (v / 256)

/-- The number that bytes stand for, low byte first. -/
def leValue : List UInt8 → ℕ
  | [] => 0
  | b :: rest => b.toNat + 256 * leValue rest

@[simp] theorem leBytes_length (n v : ℕ) : (leBytes n v).length = n := by
  induction n generalizing v with
  | zero => rfl
  | succ n ih => rw [leBytes, List.length_cons, ih]

theorem leValue_leBytes (n v : ℕ) : leValue (leBytes n v) = v % 256 ^ n := by
  induction n generalizing v with
  | zero => rw [Nat.pow_zero, Nat.mod_one]; rfl
  | succ n ih =>
    rw [leBytes, leValue, ih, Nat.pow_succ', Nat.mod_mul]
    simp

theorem leValue_lt (bytes : List UInt8) : leValue bytes < 256 ^ bytes.length := by
  induction bytes with
  | nil => exact Nat.one_pos
  | cons b rest ih =>
    have hb := b.toNat_lt
    rw [leValue, List.length_cons, Nat.pow_succ']
    omega

/-! ## Buffers -/

/-- A run of bytes with a slice overwritten. -/
def overlay (bytes : ℕ → UInt8) (off : ℕ) (data : List UInt8) (i : ℕ) : UInt8 :=
  if off ≤ i ∧ i < off + data.length then data.getD (i - off) 0 else bytes i

theorem overlay_of_disjoint {bytes : ℕ → UInt8} {off : ℕ} {data : List UInt8} {i : ℕ}
    (hi : i < off ∨ off + data.length ≤ i) : overlay bytes off data i = bytes i :=
  if_neg (by omega)

theorem overlay_add {bytes : ℕ → UInt8} {off : ℕ} {data : List UInt8} {i : ℕ}
    (hi : i < data.length) : overlay bytes off data (off + i) = data[i] := by
  unfold overlay
  rw [if_pos (by omega), Nat.add_sub_cancel_left, List.getD_eq_getElem?_getD,
    List.getElem?_eq_getElem hi, Option.getD_some]

/-- An overwritten slice depends on nothing but itself at an offset. -/
theorem overlay_congr {bytes bytes' : ℕ → UInt8} {i : ℕ} (h : bytes i = bytes' i) (off : ℕ)
    (data : List UInt8) : overlay bytes off data i = overlay bytes' off data i := by
  unfold overlay
  rw [h]

/-- The `n` bytes of a run from an offset on. -/
def slice (bytes : ℕ → UInt8) (off n : ℕ) : List UInt8 := List.ofFn fun i : Fin n => bytes (off + i)

@[simp] theorem slice_length (bytes : ℕ → UInt8) (off n : ℕ) : (slice bytes off n).length = n :=
  List.length_ofFn

theorem slice_congr {bytes bytes' : ℕ → UInt8} {off n : ℕ}
    (h : ∀ i, off ≤ i → i < off + n → bytes' i = bytes i) :
    slice bytes' off n = slice bytes off n := by
  unfold slice
  apply congrArg
  funext i
  exact h _ (by omega) (by omega)

theorem slice_overlay (bytes : ℕ → UInt8) (off : ℕ) (data : List UInt8) :
    slice (overlay bytes off data) off data.length = data := by
  apply List.ext_getElem
  · rw [slice_length]
  · intro i hi _
    rw [slice_length] at hi
    simp only [slice, List.getElem_ofFn]
    exact overlay_add hi

theorem slice_overlay_of_disjoint (bytes : ℕ → UInt8) {off off' n : ℕ} {data : List UInt8}
    (hd : off' + n ≤ off ∨ off + data.length ≤ off') :
    slice (overlay bytes off data) off' n = slice bytes off' n :=
  slice_congr fun _ _ _ => overlay_of_disjoint (by omega)

structure ByteBuffer where
  len : ℕ
  /-- The byte at an offset below the length. -/
  get : ℕ → UInt8

namespace ByteBuffer

variable {m m' : ByteBuffer} {off n : ℕ} {data : List UInt8}

/-- The slice of `n` bytes at an offset. -/
def read (m : ByteBuffer) (off n : ℕ) : Option (List UInt8) :=
  if off + n ≤ m.len then some (slice m.get off n) else none

/-- The buffer with a slice overwritten. -/
def write (m : ByteBuffer) (off : ℕ) (data : List UInt8) : Option ByteBuffer :=
  if off + data.length ≤ m.len then some ⟨m.len, overlay m.get off data⟩ else none

/-- A buffer of zeros. -/
def zeroed (len : ℕ) : ByteBuffer := ⟨len, fun _ => 0⟩

theorem read_of_le (h : off + n ≤ m.len) : m.read off n = some (slice m.get off n) := if_pos h

theorem write_of_le (h : off + data.length ≤ m.len) :
    m.write off data = some ⟨m.len, overlay m.get off data⟩ := if_pos h

theorem write_eq_none (h : m.len < off + data.length) : m.write off data = none :=
  if_neg (Nat.not_le.mpr h)

end ByteBuffer

end Svod.Lib
