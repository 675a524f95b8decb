/-
  Svod.Rangeify.Threefry

  The decomposition of THREEFRY into 32-bit arithmetic (`pm_threefry_decomp`),
  against Threefry-2x32 with 20 rounds.

  A node is typed by the width of its unsigned dtype.  A node the decomposition
  does not look into is a leaf.
-/

import Svod.Lib.AddRotateXor
import Mathlib.Algebra.Group.Nat.Defs
import Mathlib.Data.Fin.VecNotation

namespace Svod.Rangeify

open Svod.Lib

/-! ## Nodes -/

inductive WordOp where
  | add | xor | or | shl | shr
deriving DecidableEq, Repr

inductive Word : ℕ → Type where
  | leaf {w : ℕ} (id : ℕ) : Word w
  | const {w : ℕ} (value : ℤ) : Word w
  | cast {w : ℕ} (v : ℕ) (src : Word w) : Word v
  | binary {w : ℕ} (op : WordOp) (a b : Word w) : Word w
  | threefry {w : ℕ} (x : Word w) (key : Word 64) : Word 64

namespace Word

variable {w : ℕ}

def add (a b : Word w) : Word w := binary .add a b
def xor (a b : Word w) : Word w := binary .xor a b
def or_ (a b : Word w) : Word w := binary .or a b
def shl (a b : Word w) : Word w := binary .shl a b
def shr (a b : Word w) : Word w := binary .shr a b

end Word

/-! ## Decomposition -/

/-- The rotations of a group of four rounds. -/
def rotations : Fin 2 → List ℕ := ![[13, 15, 26, 6], [17, 29, 16, 24]]

/-- The body of the inner loop. -/
def mixRound (xr : Word 32 × Word 32) (r : ℕ) : Word 32 × Word 32 :=
  let newX0 := xr.1.add xr.2
  let rotLeft := xr.2.shl (.const r)
  let rotRight := xr.2.shr (.const (32 - r))
  let rotated := rotLeft.add rotRight
  (newX0, newX0.xor rotated)

/-- The body of the outer loop: a group of rounds and a key injection. -/
def mixGroup (ks : Fin 3 → Word 32) (xr : Word 32 × Word 32) (i : ℕ) : Word 32 × Word 32 :=
  let xr := (rotations (Fin.ofNat 2 i)).foldl mixRound xr
  let roundConst := .const (i + 1)
  (xr.1.add (ks (Fin.ofNat 3 i)), (xr.2.add (ks (Fin.ofNat 3 (i + 1)))).add roundConst)

/-- `[key1, key0 ^ key1 ^ 0x1BD11BDA, key0]`. -/
def keySchedule (key0 key1 : Word 32) : Fin 3 → Word 32 :=
  ![key1, (key0.xor key1).xor (.const 0x1BD11BDA), key0]

/-- `threefry2x32`. -/
def threefry2x32 (x key : Word 64) : Word 64 :=
  let shift32 := .const 32
  let x0 := Word.cast 32 x
  let x1 := Word.cast 32 (x.shr shift32)
  let key0 := Word.cast 32 key
  let key1 := Word.cast 32 (key.shr shift32)
  let ks := keySchedule key0 key1
  let xr := (List.range 5).foldl (mixGroup ks) (x0.add (ks 2), x1.add (ks 0))
  ((Word.cast 64 xr.2).shl shift32).or_ (.cast 64 xr.1)

/-- `pm_threefry_decomp`: the rule asks for a counter of 64 bits. -/
def pmThreefryDecomp : Word 64 → Option (Word 64)
  | @Word.threefry w x key => if hw : w = 64 then some (threefry2x32 (hw ▸ x) key) else none
  | _ => none

/-! ## Threefry-2x32 -/

/-- The rotation of a round. -/
def rotation (round : ℕ) : ℕ := ![13, 15, 26, 6, 17, 29, 16, 24] (Fin.ofNat 8 round)

/-- The key words, extended by their parity with the Skein constant. -/
def extendedKey (key : BitVec 32 × BitVec 32) : Fin 3 → BitVec 32 :=
  ![key.1, key.2, 0x1BD11BDA#32 ^^^ key.1 ^^^ key.2]

/-- The subkey added after the `d`-th group of four rounds. -/
def subkey (key : BitVec 32 × BitVec 32) (d : ℕ) : BitVec 32 × BitVec 32 :=
  (extendedKey key (Fin.ofNat 3 d), extendedKey key (Fin.ofNat 3 (d + 1)) + BitVec.ofNat 32 d)

def referenceRound (key s : BitVec 32 × BitVec 32) (round : ℕ) : BitVec 32 × BitVec 32 :=
  let s := mix s (rotation round)
  if (round + 1) % 4 = 0 then inject (subkey key ((round + 1) / 4)) s else s

/-- Threefry-2x32 with 20 rounds. -/
def threefryReference (key counter : BitVec 32 × BitVec 32) : BitVec 32 × BitVec 32 :=
  (List.range 20).foldl (referenceRound key) (inject (subkey key 0) counter)

/-! ## Values -/

def WordOp.eval {w : ℕ} : WordOp → BitVec w → BitVec w → BitVec w
  | .add, a, b => a + b
  | .xor, a, b => a ^^^ b
  | .or, a, b => a ||| b
  | .shl, a, b => a <<< b
  | .shr, a, b => a >>> b

/-- The value of a node, from those of the leaves. -/
def Word.eval (env : (w : ℕ) → ℕ → BitVec w) : {w : ℕ} → Word w → BitVec w
  | w, .leaf id => env w id
  | w, .const value => BitVec.ofInt w value
  | _, .cast v src => (src.eval env).setWidth v
  | _, .binary op a b => op.eval (a.eval env) (b.eval env)
  | _, .threefry x key =>
    pack (threefryReference (split (key.eval env)) (split ((x.eval env).setWidth 64)))

/-- The value of both words of a state. -/
def evalState (env : (w : ℕ) → ℕ → BitVec w) (xr : Word 32 × Word 32) : BitVec 32 × BitVec 32 :=
  (xr.1.eval env, xr.2.eval env)

/-! ## The decomposition is Threefry -/

section

variable {env : (w : ℕ) → ℕ → BitVec w}

theorem eval_const_natCast {w n : ℕ} (hn : n < 2 ^ w) :
    ((Word.const (n : ℤ) : Word w).eval env).toNat = n := by
  rw [Word.eval, BitVec.ofInt_natCast, BitVec.toNat_ofNat, Nat.mod_eq_of_lt hn]

theorem evalState_mixRound (xr : Word 32 × Word 32) {r : ℕ} (hr : r < 32) :
    evalState env (mixRound xr r) = mix (evalState env xr) r := by
  have hleft : ((Word.const (r : ℤ) : Word 32).eval env).toNat = r :=
    eval_const_natCast (by omega)
  have hright : ((Word.const (32 - r : ℤ) : Word 32).eval env).toNat = 32 - r := by
    rw [show (32 - r : ℤ) = ((32 - r : ℕ) : ℤ) by omega]
    exact eval_const_natCast (by omega)
  have hrot : ((xr.2.shl (.const r)).add (xr.2.shr (.const (32 - r)))).eval env =
      (xr.2.eval env).rotateLeft r := by
    show xr.2.eval env <<< _ + xr.2.eval env >>> _ = _
    rw [BitVec.shiftLeft_eq', BitVec.ushiftRight_eq', hleft, hright,
      shiftLeft_add_ushiftRight _ hr]
  exact Prod.ext rfl (congrArg ((xr.1.eval env + xr.2.eval env) ^^^ ·) hrot)

theorem evalState_foldl_mixRound (rs : List ℕ) (hrs : ∀ r ∈ rs, r < 32)
    (xr : Word 32 × Word 32) :
    evalState env (rs.foldl mixRound xr) = rs.foldl mix (evalState env xr) := by
  induction rs generalizing xr with
  | nil => rfl
  | cons r rs ih =>
    rw [List.foldl_cons, ih (fun r hr => hrs r (List.mem_cons_of_mem _ hr)),
      evalState_mixRound xr (hrs r List.mem_cons_self), List.foldl_cons]

theorem rotations_lt (i : Fin 2) : ∀ r ∈ rotations i, r < 32 := by
  revert i
  decide

/-- The schedule starts one place after the key words do. -/
theorem eval_keySchedule (key0 key1 : Word 32) (i : Fin 3) :
    (keySchedule key0 key1 i).eval env =
      extendedKey (evalState env (key0, key1)) (i + 1) := by
  obtain rfl | rfl | rfl : i = 0 ∨ i = 1 ∨ i = 2 := by omega
  · rfl
  · show (key0.eval env ^^^ key1.eval env) ^^^ 0x1BD11BDA#32 =
      (0x1BD11BDA#32 ^^^ key0.eval env) ^^^ key1.eval env
    rw [BitVec.xor_comm, BitVec.xor_assoc]
  · rfl

/-- A group of four rounds of the reference. -/
def referenceGroup (key s : BitVec 32 × BitVec 32) (i : ℕ) : BitVec 32 × BitVec 32 :=
  inject (subkey key (i + 1)) ((rotations (Fin.ofNat 2 i)).foldl mix s)

theorem evalState_mixGroup (key0 key1 : Word 32) (xr : Word 32 × Word 32) (i : ℕ) :
    evalState env (mixGroup (keySchedule key0 key1) xr i) =
      referenceGroup (evalState env (key0, key1)) (evalState env xr) i := by
  have hnext : ∀ j : ℕ, Fin.ofNat 3 j + 1 = Fin.ofNat 3 (j + 1) := by
    intro j
    ext
    simp [Fin.val_add]
  unfold referenceGroup
  rw [← evalState_foldl_mixRound _ (rotations_lt _)]
  refine Prod.ext ?_ ?_
  · show _ + (keySchedule key0 key1 (Fin.ofNat 3 i)).eval env = _
    rw [eval_keySchedule, hnext]
    rfl
  · show (_ + (keySchedule key0 key1 (Fin.ofNat 3 (i + 1))).eval env) + BitVec.ofInt 32 (i + 1) = _
    rw [eval_keySchedule, hnext, BitVec.add_assoc]
    rfl

/-- The rotations of the reference repeat after two groups. -/
theorem rotation_group (n : ℕ) : [rotation (4 * n), rotation (4 * n + 1), rotation (4 * n + 2),
    rotation (4 * n + 3)] = rotations (Fin.ofNat 2 n) := by
  have hrot : ∀ j, rotation (4 * n + j) = rotation (4 * (n % 2) + j) := by
    intro j
    unfold rotation
    congr 1
    ext
    simp only [Fin.val_ofNat]
    omega
  have hgroup : Fin.ofNat 2 n = Fin.ofNat 2 (n % 2) := by
    ext
    simp
  rw [show rotation (4 * n) = rotation (4 * (n % 2)) from hrot 0, hrot 1, hrot 2, hrot 3, hgroup]
  rcases Nat.mod_two_eq_zero_or_one n with h | h <;> rw [h] <;> rfl

/-- Only the last of four rounds injects a key. -/
theorem referenceRound_four (key s : BitVec 32 × BitVec 32) (n : ℕ) :
    [4 * n, 4 * n + 1, 4 * n + 2, 4 * n + 3].foldl (referenceRound key) s =
      referenceGroup key s n := by
  have hplain : ∀ s' j, j < 3 →
      referenceRound key s' (4 * n + j) = mix s' (rotation (4 * n + j)) := by
    intro s' j hj
    exact if_neg (by omega)
  have hlast : ∀ s', referenceRound key s' (4 * n + 3) =
      inject (subkey key (n + 1)) (mix s' (rotation (4 * n + 3))) := by
    intro s'
    unfold referenceRound
    rw [if_pos (by omega), show (4 * n + 3 + 1) / 4 = n + 1 by omega]
  unfold referenceGroup
  rw [← rotation_group]
  simp only [List.foldl_cons, List.foldl_nil]
  rw [hlast, hplain _ 2 (by omega), hplain _ 1 (by omega), show 4 * n = 4 * n + 0 from rfl,
    hplain _ 0 (by omega)]

/-- Four rounds of the reference are a group. -/
theorem foldl_referenceRound (key s : BitVec 32 × BitVec 32) (n : ℕ) :
    (List.range (4 * n)).foldl (referenceRound key) s =
      (List.range n).foldl (referenceGroup key) s := by
  induction n with
  | zero => rfl
  | succ n ih =>
    have hrange : List.range (4 * (n + 1)) =
        List.range (4 * n) ++ [4 * n, 4 * n + 1, 4 * n + 2, 4 * n + 3] := by
      rw [show 4 * (n + 1) = 4 * n + 1 + 1 + 1 + 1 by omega]
      simp only [List.range_succ, List.append_assoc, List.cons_append, List.nil_append]
    rw [hrange, List.foldl_append, ih, List.range_succ, List.foldl_append]
    exact referenceRound_four key _ n

theorem eval_threefry2x32 (x key : Word 64) :
    (threefry2x32 x key).eval env =
      pack (threefryReference (split (key.eval env)) (split (x.eval env))) := by
  have hhalves : ∀ y : Word 64, evalState env (.cast 32 y, .cast 32 (y.shr (.const 32))) =
      split (y.eval env) := by
    intro y
    rfl
  have hstart : ∀ key0 key1 x0 x1 : Word 32,
      evalState env (x0.add (keySchedule key0 key1 2), x1.add (keySchedule key0 key1 0)) =
        inject (subkey (evalState env (key0, key1)) 0) (evalState env (x0, x1)) := by
    intro key0 key1 x0 x1
    refine Prod.ext rfl ?_
    show x1.eval env + key1.eval env = x1.eval env + (key1.eval env + 0#32)
    rw [BitVec.add_zero]
  have hgroups : ∀ (key0 key1 : Word 32) (is : List ℕ) (xr : Word 32 × Word 32),
      evalState env (is.foldl (mixGroup (keySchedule key0 key1)) xr) =
        is.foldl (referenceGroup (evalState env (key0, key1))) (evalState env xr) := by
    intro key0 key1 is xr
    exact (List.foldl_hom _ fun xr i => (evalState_mixGroup key0 key1 xr i).symm).symm
  have hpack : ∀ xr : Word 32 × Word 32,
      (((Word.cast 64 xr.2).shl (.const 32)).or_ (.cast 64 xr.1)).eval env =
        pack (evalState env xr) := by
    intro xr
    rfl
  unfold threefry2x32
  rw [hpack, hgroups, hstart, hhalves, hhalves, threefryReference, ← foldl_referenceRound]

end

/-! ## Permutation -/

theorem rotation_lt (round : ℕ) : rotation round < 32 := by
  unfold rotation
  generalize Fin.ofNat 8 round = i
  revert i
  decide

theorem referenceRound_bijective (key : BitVec 32 × BitVec 32) (round : ℕ) :
    Function.Bijective fun s => referenceRound key s round := by
  have hmix := mix_bijective (rotation_lt round)
  unfold referenceRound
  by_cases h : (round + 1) % 4 = 0
  · simp only [if_pos h]
    exact (inject_bijective _).comp hmix
  · simp only [if_neg h]
    exact hmix

theorem foldl_referenceRound_bijective (key k : BitVec 32 × BitVec 32) (rounds : List ℕ) :
    Function.Bijective fun s => rounds.foldl (referenceRound key) (inject k s) :=
  (bijective_foldl rounds fun round _ => referenceRound_bijective key round).comp
    (inject_bijective k)

theorem threefryReference_bijective (key : BitVec 32 × BitVec 32) :
    Function.Bijective (threefryReference key) :=
  foldl_referenceRound_bijective key (subkey key 0) (List.range 20)

example : threefryReference (0, 1337) (0, 10) = (2221762175, 3544324138) := by decide

/-- A counter of 64 bits is permuted. -/
theorem threefry_bijective (key : BitVec 64) :
    Function.Bijective fun x : BitVec 64 =>
      @pack 32 (threefryReference (@split 32 key) (@split 32 x)) := by
  have h := threefryReference_bijective (@split 32 key)
  -- the rounds stay folded while the compositions are matched
  generalize threefryReference (@split 32 key) = f at h
  exact (@pack_bijective 32).comp (h.comp (@split_bijective 32))

end Svod.Rangeify
