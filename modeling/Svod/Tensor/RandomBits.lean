/-
  Svod.Tensor.RandomBits

  The random words of `rand/primitive.rs`: THREEFRY over a range of counter
  blocks.  A tensor of one dimension is the list of its elements, a scalar one
  that of its single element; an operation the shape rules refuse is `none`.

  `arange` counts in Int32, so its length is committed to Int32 as well.
-/

import Svod.Lib.MachineInt
import Svod.Rangeify.Threefry
import Mathlib.Data.BitVec

namespace Svod.Tensor

open Svod.Lib Svod.Rangeify

variable {w : ℕ}

/-! ## Tensor operations -/

def full (n : ℕ) (value : ℤ) : List (BitVec w) := List.replicate n (BitVec.ofInt w value)

/-- A cast between unsigned types, or from Int32 to UInt32. -/
def cast (v : ℕ) (t : List (BitVec w)) : List (BitVec v) := t.map (·.setWidth v)

/-- `try_shrink`. -/
def tryShrink (t : List (BitVec w)) (start stop : ℕ) : Option (List (BitVec w)) :=
  if start ≤ stop ∧ stop ≤ t.length then some ((t.drop start).take (stop - start)) else none

/-- `broadcast_to`. -/
def broadcastTo (t : List (BitVec w)) (n : ℕ) : Option (List (BitVec w)) :=
  if t.length = n then some t
  else match t with
    | [a] => some (List.replicate n a)
    | _ => none

/-- `broadcast_shape`, of one dimension. -/
def broadcastDim (l r : ℕ) : Option ℕ :=
  if l = r then some l
  else if l = 1 then some r
  else if r = 1 then some l
  else none

/-- An element-wise operation, after `broadcast_for_binop`. -/
def tryBinary (op : BitVec w → BitVec w → BitVec w) (a b : List (BitVec w)) :
    Option (List (BitVec w)) := do
  let n ← broadcastDim a.length b.length
  let a ← broadcastTo a n
  let b ← broadcastTo b n
  some (List.zipWith op a b)

/-- `pool` with stride 1: the windows of `k` elements. -/
def pool (k : ℕ) (t : List (BitVec w)) : List (List (BitVec w)) :=
  (List.range (t.length + 1 - k)).map fun i => (t.drop i).take k

/-- `cumsum`: every window of the tensor after `n - 1` zeros. -/
def cumsum (t : List (BitVec w)) : List (BitVec w) :=
  if t.length ≤ 1 then t
  else (pool t.length (List.replicate (t.length - 1) 0 ++ t)).map List.sum

/-- `arange`, with steps of one: the bounds are Int32 constants, and the sum is an Int32 one. -/
def arange (start stop : ℤ) : Option (List (BitVec 32)) :=
  let start := wrapSigned 32 start
  let stop := wrapSigned 32 stop
  let ceildiv := stop - start
  if ceildiv ≤ 0 then some []
  else tryBinary (· + ·) (cumsum (full ceildiv.toNat 1)) [BitVec.ofInt 32 (start - 1)]

/-! ## Random words -/

/-- An element of a THREEFRY tensor: the decomposition, at the operands' elements. -/
def threefryElement (x key : BitVec 64) : BitVec 64 :=
  (threefry2x32 (.leaf 0) (.leaf 1)).eval fun w id =>
    if id = 0 then x.setWidth w else key.setWidth w

/-- `threefry_random_bits`. -/
def threefryRandomBits (key counts0 counts1 : List (BitVec 32)) : Option (List (BitVec 32)) := do
  let shift32 : List (BitVec 64) := full counts0.length 32
  let c0 := cast 64 counts0
  let c1 := cast 64 counts1
  let c1Shifted ← tryBinary (· <<< ·) c1 shift32
  let x ← tryBinary (· ||| ·) c1Shifted c0
  let kShift32 : List (BitVec 64) := full 1 32
  let k0 := cast 64 (← tryShrink key 0 1)
  let k1 := cast 64 (← tryShrink key 1 2)
  let k1Shifted ← tryBinary (· <<< ·) k1 kShift32
  let keyPacked ← tryBinary (· ||| ·) k1Shifted k0
  let keyBroadcast ← broadcastTo keyPacked counts0.length
  let result ← tryBinary threefryElement x keyBroadcast
  let lo := cast 32 result
  let hi := cast 32 (← tryBinary (· >>> ·) result shift32)
  some (lo ++ hi)

/-- `random_bits`. -/
def randomBits (seed counter : List (BitVec 32)) (num : ℕ) : Option (List (BitVec 32)) := do
  let cLow ← tryShrink counter 0 1
  let cHigh ← tryShrink counter 1 2
  let newKey ← threefryRandomBits seed cLow cHigh
  let half := (num + 1) / 2
  let counts0 := cast 32 (← arange 0 half)
  let halfT := full half half
  let counts1 ← tryBinary (· + ·) counts0 halfT
  let bitsFull ← threefryRandomBits newKey counts0 counts1
  tryShrink bitsFull 0 num

/-! ## Operations on tensors of one length -/

theorem tryBinary_map {α : Type*} (op : BitVec w → BitVec w → BitVec w) (l : List α)
    (f g : α → BitVec w) :
    tryBinary op (l.map f) (l.map g) = some (l.map fun x => op (f x) (g x)) := by
  unfold tryBinary broadcastDim broadcastTo
  simp [List.zipWith_map, List.zipWith_self]

theorem full_eq_map {α : Type*} (l : List α) (value : ℤ) :
    (full l.length value : List (BitVec w)) = l.map fun _ => BitVec.ofInt w value :=
  (List.map_const' ..).symm

theorem cast_map {α : Type*} (v : ℕ) (l : List α) (f : α → BitVec w) :
    cast v (l.map f) = l.map fun x => (f x).setWidth v :=
  List.map_map

theorem tryBinary_singleton (op : BitVec w → BitVec w → BitVec w) (a b : BitVec w) :
    tryBinary op [a] [b] = some [op a b] :=
  rfl

theorem cast_singleton (v : ℕ) (a : BitVec w) : cast v [a] = [a.setWidth v] :=
  rfl

theorem full_one (value : ℤ) : (full 1 value : List (BitVec w)) = [BitVec.ofInt w value] :=
  rfl

theorem broadcastTo_singleton {α : Type*} (a : BitVec w) (l : List α) :
    broadcastTo [a] l.length = some (l.map fun _ => a) := by
  unfold broadcastTo
  rw [List.map_const']
  split_ifs with h
  · rw [← h]
    rfl
  · rfl

/-- A scalar operand meets every element. -/
theorem tryBinary_scalar {α : Type*} (op : BitVec w → BitVec w → BitVec w) (l : List α)
    (f : α → BitVec w) (a : BitVec w) :
    tryBinary op (l.map f) [a] = some (l.map fun x => op (f x) a) := by
  have hdim : broadcastDim (l.map f).length [a].length = some (l.map f).length := by
    unfold broadcastDim
    split_ifs with h h' h'
    · rfl
    · exact absurd h' h
    · rfl
    · exact absurd rfl h'
  have hself : broadcastTo (l.map f) (l.map f).length = some (l.map f) := if_pos rfl
  unfold tryBinary
  simp only [hdim, Option.bind_eq_bind, Option.bind_some, hself]
  rw [List.length_map, broadcastTo_singleton, Option.bind_some, List.zipWith_map,
    List.zipWith_self]

/-! ## THREEFRY over blocks -/

theorem threefryElement_eq (x key : BitVec 64) :
    threefryElement x key = @pack 32 (threefryReference (@split 32 key) (@split 32 x)) := by
  unfold threefryElement
  rw [eval_threefry2x32]
  simp only [Word.eval, if_true, one_ne_zero, if_false, BitVec.setWidth_eq]

/-- The words of the blocks: the low ones, and after them the high ones. -/
theorem threefryRandomBits_blocks (k0 k1 : BitVec 32) (blocks : List (BitVec 32 × BitVec 32)) :
    threefryRandomBits [k0, k1] (blocks.map Prod.fst) (blocks.map Prod.snd) =
      some ((blocks.map fun b => (threefryReference (k0, k1) b).1) ++
        blocks.map fun b => (threefryReference (k0, k1) b).2) := by
  have hlow : tryShrink [k0, k1] 0 1 = some [k0] := rfl
  have hhigh : tryShrink [k0, k1] 1 2 = some [k1] := rfl
  have hpack : ∀ b : BitVec 32 × BitVec 32,
      b.2.setWidth 64 <<< BitVec.ofInt 64 32 ||| b.1.setWidth 64 = @pack 32 b := fun _ => rfl
  have hresult : ∀ b : BitVec 32 × BitVec 32,
      threefryElement (@pack 32 b) (@pack 32 (k0, k1)) =
        @pack 32 (threefryReference (k0, k1) b) := by
    intro b
    rw [threefryElement_eq, split_pack, split_pack]
  have hfst : ∀ s : BitVec 32 × BitVec 32, (@pack 32 s).setWidth 32 = s.1 :=
    fun s => congrArg Prod.fst (split_pack s)
  have hsnd : ∀ s : BitVec 32 × BitVec 32,
      (@pack 32 s >>> BitVec.ofInt 64 32).setWidth 32 = s.2 :=
    fun s => congrArg Prod.snd (split_pack s)
  unfold threefryRandomBits
  simp only [List.length_map, full_eq_map, cast_map, tryBinary_map, Option.bind_eq_bind,
    Option.bind_some, hpack, hlow, hhigh, tryBinary_singleton, cast_singleton, full_one,
    broadcastTo_singleton, hpack (k0, k1), hresult, hfst, hsnd]

/-! ## Counting -/

/-- The windows of `n` ones after `n - 1` zeros. -/
theorem pool_ones (n : ℕ) (hn : 0 < n) :
    pool n (List.replicate (n - 1) 0 ++ full n 1 : List (BitVec w)) =
      (List.range n).map fun i => List.replicate (n - 1 - i) 0 ++ List.replicate (i + 1) 1 := by
  unfold pool full
  have hlen : (List.replicate (n - 1) (0 : BitVec w) ++
      List.replicate n (BitVec.ofInt w 1)).length + 1 - n = n := by
    rw [List.length_append, List.length_replicate, List.length_replicate]
    omega
  rw [hlen]
  refine List.map_congr_left fun i hi => ?_
  have hi : i < n := List.mem_range.mp hi
  rw [List.drop_append_of_le_length (by rw [List.length_replicate]; omega), List.drop_replicate,
    List.take_append, List.take_replicate, List.take_replicate, List.length_replicate,
    show min n (n - 1 - i) = n - 1 - i by omega, show min (n - (n - 1 - i)) n = i + 1 by omega]
  rfl

theorem sum_window (a b : ℕ) :
    (List.replicate a (0 : BitVec w) ++ List.replicate b 1).sum = BitVec.ofNat w b := by
  rw [List.sum_append, List.sum_replicate, List.sum_replicate, nsmul_zero, zero_add, nsmul_one]
  rfl

/-- The running sum of ones counts. -/
theorem cumsum_ones (n : ℕ) (hn : 0 < n) :
    (cumsum (full n 1) : List (BitVec w)) =
      (List.range n).map fun i => BitVec.ofNat w (i + 1) := by
  have hlen : (full n 1 : List (BitVec w)).length = n := List.length_replicate
  unfold cumsum
  rw [hlen]
  split_ifs with h
  · obtain rfl : n = 1 := by omega
    rfl
  · rw [pool_ones n hn, List.map_map]
    exact List.map_congr_left fun i _ => sum_window _ _

/-- As many counters as Int32 can say. -/
theorem arange_of_lt {n : ℕ} (hn : n < 2 ^ 31) :
    arange 0 n = some ((List.range n).map (BitVec.ofNat 32)) := by
  have hstop : wrapSigned 32 n = n := wrapSigned_of_bounds (by omega) (by omega) (by omega)
  unfold arange
  rw [hstop]
  show (if (n : ℤ) - 0 ≤ 0 then _ else _) = _
  split_ifs with h
  · obtain rfl : n = 0 := by omega
    rfl
  · show tryBinary (· + ·) (cumsum (full ((n : ℤ) - 0).toNat 1)) [BitVec.ofInt 32 (0 - 1)] = _
    rw [show ((n : ℤ) - 0).toNat = n by omega, cumsum_ones n (by omega), tryBinary_scalar]
    refine congrArg some (List.map_congr_left fun i _ => ?_)
    have hstart : BitVec.ofInt 32 (0 - 1) = -1#32 := by decide
    rw [hstart, BitVec.ofNat_add, ← BitVec.sub_eq_add_neg, BitVec.add_sub_cancel]

/-- From `2^31` on the length is a negative Int32. -/
theorem arange_two_pow : arange 0 (2 ^ 31 : ℕ) = some [] := by
  decide

/-! ## Random words -/

/-- The counter blocks of a draw: a low and a high word each. -/
def counterBlocks (half : ℕ) : List (BitVec 32 × BitVec 32) :=
  (List.range half).map fun i => (BitVec.ofNat 32 i, BitVec.ofNat 32 (i + half))

theorem counterBlocks_nodup {half : ℕ} (hhalf : half < 2 ^ 32) : (counterBlocks half).Nodup := by
  refine List.Nodup.map_on (fun i hi j hj h => ?_) List.nodup_range
  have hi := List.mem_range.mp hi
  have hj := List.mem_range.mp hj
  have hlow := congrArg BitVec.toNat (Prod.mk.inj h).1
  rwa [BitVec.toNat_ofNat, BitVec.toNat_ofNat, Nat.mod_eq_of_lt (by omega),
    Nat.mod_eq_of_lt (by omega)] at hlow

/-- The words of a draw are the halves of distinct permuted counter blocks, `num` of them. -/
def DrawsDistinctBlocks (seed counter : BitVec 32 × BitVec 32) (num : ℕ) : Prop :=
  ∃ blocks : List (BitVec 32 × BitVec 32), blocks.Nodup ∧ blocks.length = (num + 1) / 2 ∧
    ∃ words, randomBits [seed.1, seed.2] [counter.1, counter.2] num = some words ∧
      words.length = num ∧
      words = ((blocks.map fun b => (threefryReference (threefryReference seed counter) b).1) ++
        blocks.map fun b => (threefryReference (threefryReference seed counter) b).2).take num

/-- The key of a draw is the seed's permutation of the counter. -/
theorem randomBits_newKey (seed counter : BitVec 32 × BitVec 32) :
    threefryRandomBits [seed.1, seed.2] [counter.1] [counter.2] =
      some [(threefryReference seed counter).1, (threefryReference seed counter).2] :=
  threefryRandomBits_blocks seed.1 seed.2 [counter]

theorem randomBits_draws (seed counter : BitVec 32 × BitVec 32) {num : ℕ}
    (hnum : num < 2 ^ 32 - 1) : DrawsDistinctBlocks seed counter num := by
  have hhalf : (num + 1) / 2 < 2 ^ 31 := by omega
  have hlen : (counterBlocks ((num + 1) / 2)).length = (num + 1) / 2 := by
    unfold counterBlocks
    rw [List.length_map, List.length_range]
  refine ⟨counterBlocks ((num + 1) / 2), counterBlocks_nodup (by omega), hlen, _, ?_, ?_, rfl⟩
  · have hlow : cast 32 ((List.range ((num + 1) / 2)).map (BitVec.ofNat 32)) =
        (counterBlocks ((num + 1) / 2)).map Prod.fst := by
      unfold counterBlocks
      rw [cast_map, List.map_map]
      exact List.map_congr_left fun i _ => BitVec.setWidth_eq _
    have hhigh : tryBinary (· + ·) ((counterBlocks ((num + 1) / 2)).map Prod.fst)
        (full ((num + 1) / 2) ((num + 1) / 2 : ℕ)) =
          some ((counterBlocks ((num + 1) / 2)).map Prod.snd) := by
      have hfull := @full_eq_map 32 _ (List.range ((num + 1) / 2)) ((num + 1) / 2 : ℕ)
      rw [List.length_range] at hfull
      unfold counterBlocks
      rw [List.map_map, List.map_map, hfull, tryBinary_map]
      refine congrArg some (List.map_congr_left fun i _ => ?_)
      show BitVec.ofNat 32 i + BitVec.ofInt 32 ((num + 1) / 2 : ℕ) = _
      rw [BitVec.ofInt_natCast, ← BitVec.ofNat_add]
      rfl
    unfold randomBits
    have h0 : tryShrink [counter.1, counter.2] 0 1 = some [counter.1] := rfl
    have h1 : tryShrink [counter.1, counter.2] 1 2 = some [counter.2] := rfl
    simp only [h0, h1, Option.bind_eq_bind, Option.bind_some, randomBits_newKey,
      arange_of_lt hhalf, hlow, hhigh, threefryRandomBits_blocks]
    unfold tryShrink
    rw [if_pos, List.drop_zero, Nat.sub_zero]
    simp only [List.length_append, List.length_map, hlen]
    omega
  · simp only [List.length_take, List.length_append, List.length_map, hlen]
    omega

/-- Without counters to add to, several halves are a broadcast error. -/
theorem randomBits_of_arange_nil (seed counter : BitVec 32 × BitVec 32) {num : ℕ}
    (harange : arange 0 ((num + 1) / 2 : ℕ) = some []) (hhalf : 1 < (num + 1) / 2) :
    randomBits [seed.1, seed.2] [counter.1, counter.2] num = none := by
  have h0 : tryShrink [counter.1, counter.2] 0 1 = some [counter.1] := rfl
  have h1 : tryShrink [counter.1, counter.2] 1 2 = some [counter.2] := rfl
  have hcounts : cast 32 ([] : List (BitVec 32)) = [] := rfl
  have hadd : ∀ half : ℕ, 1 < half →
      tryBinary (· + ·) ([] : List (BitVec 32)) (full half half) = none := by
    intro half hhalf
    have hdim : broadcastDim 0 half = none := by
      unfold broadcastDim
      rw [if_neg (by omega), if_neg (by omega), if_neg (by omega)]
    unfold tryBinary full
    rw [List.length_replicate, List.length_nil, hdim]
    rfl
  unfold randomBits
  simp only [h0, h1, Option.bind_eq_bind, Option.bind_some, randomBits_newKey, harange, hcounts,
    hadd _ hhalf, Option.bind_none]

/-- The longest draw has a half of `2^31` counters, which Int32 cannot say. -/
theorem randomBits_two_pow (seed counter : BitVec 32 × BitVec 32) :
    randomBits [seed.1, seed.2] [counter.1, counter.2] (2 ^ 32 - 1) = none :=
  randomBits_of_arange_nil seed counter arange_two_pow (by decide)

/-- What the decomposition of THREEFRY is: the permutation of the counter by Threefry-2x32. -/
structure DecomposesToPermutation : Prop where
  equals : ∀ x key : Word 64, ∃ e, pmThreefryDecomp (.threefry x key) = some e ∧ ∀ env,
    e.eval env =
      @pack 32 (threefryReference (@split 32 (key.eval env)) (@split 32 (x.eval env)))
  bijective : ∀ key : BitVec 64, Function.Bijective fun x => threefryElement x key

theorem decomposesToPermutation : DecomposesToPermutation where
  equals x key := ⟨threefry2x32 x key, rfl, fun _ => eval_threefry2x32 x key⟩
  bijective key := by
    simp only [threefryElement_eq]
    exact threefry_bijective key

/-- The split of `threefry_random_bits` inverts its packing. -/
def SplitInvertsPack : Prop :=
  ∀ c0 c1 : BitVec 32,
    let x := c1.setWidth 64 <<< 32#64 ||| c0.setWidth 64
    x.setWidth 32 = c0 ∧ (x >>> 32#64).setWidth 32 = c1

theorem splitInvertsPack : SplitInvertsPack := fun c0 c1 =>
  ⟨congrArg Prod.fst (@split_pack 32 (c0, c1)), congrArg Prod.snd (@split_pack 32 (c0, c1))⟩

/-- A draw below `2^32` words permutes distinct counter blocks unless it is the longest one. -/
theorem randomBits_permutes_iff (seed counter : BitVec 32 × BitVec 32) (num : ℕ)
    (hnum : num < 2 ^ 32) :
    DecomposesToPermutation ∧ SplitInvertsPack ∧ DrawsDistinctBlocks seed counter num ↔
      num ≠ 2 ^ 32 - 1 := by
  constructor
  · rintro ⟨-, -, blocks, -, -, words, hwords, -⟩ rfl
    rw [randomBits_two_pow] at hwords
    cases hwords
  · intro hne
    exact ⟨decomposesToPermutation, splitInvertsPack, randomBits_draws seed counter (by omega)⟩

theorem randomBits_permutes_iff_five :
    DecomposesToPermutation ∧ SplitInvertsPack ∧ DrawsDistinctBlocks (0x14b81119, 1337) (7, 0) 5 :=
  (randomBits_permutes_iff (0x14b81119, 1337) (7, 0) 5 (by decide)).mpr (by decide)

theorem randomBits_permutes_fails :
    ¬ ∀ (seed counter : BitVec 32 × BitVec 32) (num : ℕ), num < 2 ^ 32 →
      DrawsDistinctBlocks seed counter num := by
  intro h
  obtain ⟨blocks, -, -, words, hwords, -⟩ := h (0x14b81119, 1337) (0, 0) (2 ^ 32 - 1) (by decide)
  rw [randomBits_two_pow] at hwords
  cases hwords

end Svod.Tensor
