/-
  Svod.Lib.AddRotateXor

  Add-rotate-xor networks over pairs of machine words.  Every step of such a
  network is a bijection of the pair, and so is the network, whatever the
  rotations and the injected keys are.
-/

import Mathlib.Logic.Equiv.Prod
import Mathlib.Data.Nat.Notation

namespace Svod.Lib

variable {w : ℕ}

/-! ## Folds of bijections -/

/-- A fold whose every step is a bijection is a bijection. -/
theorem bijective_foldl {α β : Type*} {f : α → β → α} (l : List β)
    (hf : ∀ b ∈ l, Function.Bijective fun a => f a b) :
    Function.Bijective fun a => l.foldl f a := by
  induction l with
  | nil => exact Function.bijective_id
  | cons b l ih =>
    have htail := ih fun c hc => hf c (List.mem_cons_of_mem b hc)
    exact htail.comp (hf b List.mem_cons_self)

/-! ## Rotations -/

/-- The shifts of a barrel rotation share no bit, so their sum is the rotation. -/
theorem shiftLeft_add_ushiftRight (x : BitVec w) {r : ℕ} (hr : r < w) :
    x <<< r + x >>> (w - r) = x.rotateLeft r := by
  have hdisjoint : x <<< r &&& x >>> (w - r) = 0#w := by
    ext i hi
    simp only [BitVec.getElem_and, BitVec.getElem_shiftLeft, BitVec.getElem_ushiftRight,
      BitVec.getElem_zero]
    by_cases h : i < r
    · simp [h]
    · rw [BitVec.getLsbD_of_ge x (w - r + i) (by omega), Bool.and_false]
  rw [BitVec.add_eq_or_of_and_eq_zero _ _ hdisjoint, BitVec.rotateLeft_def, Nat.mod_eq_of_lt hr]

theorem rotateRight_rotateLeft (x : BitVec w) {r : ℕ} (hr : r < w) :
    (x.rotateLeft r).rotateRight r = x := by
  have hmod : r % w = r := Nat.mod_eq_of_lt hr
  ext i hi
  rw [BitVec.getElem_rotateRight]
  split_ifs with h
  · rw [BitVec.getElem_rotateLeft, dif_neg (by omega)]
    congr 1
    omega
  · rw [BitVec.getElem_rotateLeft, dif_pos (by omega)]
    congr 1
    omega

theorem rotateLeft_rotateRight (x : BitVec w) {r : ℕ} (hr : r < w) :
    (x.rotateRight r).rotateLeft r = x := by
  have hmod : r % w = r := Nat.mod_eq_of_lt hr
  ext i hi
  rw [BitVec.getElem_rotateLeft]
  split_ifs with h
  · rw [BitVec.getElem_rotateRight, dif_neg (by omega)]
    congr 1
    omega
  · rw [BitVec.getElem_rotateRight, dif_pos (by omega)]
    congr 1
    omega

/-! ## Steps -/

/-- Adds the words, and rotates the second one against the sum. -/
def mix (s : BitVec w × BitVec w) (r : ℕ) : BitVec w × BitVec w :=
  (s.1 + s.2, (s.1 + s.2) ^^^ s.2.rotateLeft r)

def unmix (s : BitVec w × BitVec w) (r : ℕ) : BitVec w × BitVec w :=
  (s.1 - (s.1 ^^^ s.2).rotateRight r, (s.1 ^^^ s.2).rotateRight r)

theorem unmix_mix (s : BitVec w × BitVec w) {r : ℕ} (hr : r < w) : unmix (mix s r) r = s := by
  have hsnd : ((s.1 + s.2) ^^^ ((s.1 + s.2) ^^^ s.2.rotateLeft r)).rotateRight r = s.2 := by
    rw [← BitVec.xor_assoc, BitVec.xor_self, BitVec.zero_xor, rotateRight_rotateLeft _ hr]
  unfold unmix mix
  rw [hsnd, BitVec.add_sub_cancel]

theorem mix_unmix (s : BitVec w × BitVec w) {r : ℕ} (hr : r < w) : mix (unmix s r) r = s := by
  unfold unmix mix
  rw [BitVec.sub_add_cancel, rotateLeft_rotateRight _ hr, ← BitVec.xor_assoc, BitVec.xor_self,
    BitVec.zero_xor]

theorem mix_bijective {r : ℕ} (hr : r < w) :
    Function.Bijective fun s : BitVec w × BitVec w => mix s r :=
  Function.bijective_iff_has_inverse.mpr
    ⟨fun s => unmix s r, fun s => unmix_mix s hr, fun s => mix_unmix s hr⟩

/-- Adds a key to each word. -/
def inject (k s : BitVec w × BitVec w) : BitVec w × BitVec w := (s.1 + k.1, s.2 + k.2)

theorem inject_bijective (k : BitVec w × BitVec w) : Function.Bijective (inject k) :=
  Function.bijective_iff_has_inverse.mpr
    ⟨fun s => (s.1 - k.1, s.2 - k.2),
      fun s => Prod.ext (BitVec.add_sub_cancel s.1 k.1) (BitVec.add_sub_cancel s.2 k.2),
      fun s => Prod.ext (BitVec.sub_add_cancel s.1 k.1) (BitVec.sub_add_cancel s.2 k.2)⟩

/-! ## Words and their halves -/

/-- The low and the high half. -/
def split (x : BitVec (w + w)) : BitVec w × BitVec w :=
  (x.setWidth w, (x >>> w).setWidth w)

def pack (s : BitVec w × BitVec w) : BitVec (w + w) :=
  s.2.setWidth (w + w) <<< w ||| s.1.setWidth (w + w)

@[simp] theorem split_pack (s : BitVec w × BitVec w) : split (pack s) = s := by
  refine Prod.ext ?_ ?_
  · ext i hi
    simp [split, pack]
  · ext i hi
    simp [split, pack, hi]

@[simp] theorem pack_split (x : BitVec (w + w)) : pack (split x) = x := by
  ext i hi
  by_cases h : i < w
  · simp [split, pack, h, BitVec.getLsbD_eq_getElem hi]
  · have hhigh : i - w < w := by omega
    have hback : w + (i - w) = i := by omega
    simp [split, pack, h, hhigh, hback, BitVec.getLsbD_eq_getElem hi]

theorem pack_bijective : Function.Bijective (@pack w) :=
  Function.bijective_iff_has_inverse.mpr ⟨split, split_pack, pack_split⟩

theorem split_bijective : Function.Bijective (@split w) :=
  Function.bijective_iff_has_inverse.mpr ⟨pack, pack_split, split_pack⟩

end Svod.Lib
