/-
  Svod.Tk.NearestSound

  The networks of the nearest kernels sort and merge every row.

  `Holds w seq X` says that the tiles hold the sequence `X row` in each row; a
  stage of the kernel is then a stage of the bitonic network on that sequence.
-/

import Mathlib.Data.Prod.Lex
import Svod.Lib.Bitonic
import Svod.Tk.Nearest

namespace Svod.Tk.Nearest

open Svod Svod.Bitonic

variable {σ ι : Type} [LinearOrder σ] [LinearOrder ι]

/-! ## Elements -/

omit [LinearOrder σ] [LinearOrder ι] in
theorem eq_two_pow_of_isPowerOfTwo {n : ℕ} (h : isPowerOfTwo n = true) : ∃ k, n = 2 ^ k :=
  ⟨n.log2, of_decide_eq_true h⟩

theorem isPowerOfTwo_two_pow (k : ℕ) : isPowerOfTwo (2 ^ k) = true := by
  rw [isPowerOfTwo, Nat.log2_two_pow]
  exact decide_eq_true rfl

/-- The score and the index at a place, in the order of `before`. -/
def Pair.element (x : Pair σ ι) (row col : ℕ) : σ ×ₗ ι := toLex (x.score row col, x.index row col)

theorem before_eq (a b : Pair σ ι) (row col : ℕ) :
    before a b row col = decide (a.element row col < b.element row col) := by
  rw [before, Bool.eq_iff_iff]
  simp only [Bool.or_eq_true, Bool.and_eq_true, decide_eq_true_eq, Pair.element,
    Prod.Lex.toLex_lt_toLex]

omit [LinearOrder σ] [LinearOrder ι] in
theorem where_element (pred : Tile Bool) (a b : Pair σ ι) (row col : ℕ) :
    (Pair.where_ pred a b).element row col =
      if pred row col then a.element row col else b.element row col := by
  simp only [Pair.element, Pair.where_, Tile.where_]
  split <;> rfl

/-- Both of a pair of tiles ordered. -/
theorem where_before (a b : Pair σ ι) (row col : ℕ) :
    (Pair.where_ (before a b) a b).element row col =
        min (a.element row col) (b.element row col) ∧
      (Pair.where_ (before a b) b a).element row col =
        max (a.element row col) (b.element row col) := by
  rw [where_element, where_element, before_eq]
  simp only [decide_eq_true_eq]
  split
  · next h => exact ⟨(min_eq_left h.le).symm, (max_eq_right h.le).symm⟩
  · next h => exact ⟨(min_eq_right (not_lt.mp h)).symm, (max_eq_left (not_lt.mp h)).symm⟩

omit [LinearOrder σ] [LinearOrder ι] in
theorem flip_eq {b mask : ℕ} (hpos : 0 < mask) (hlt : mask < 2 ^ b) (x : Pair σ ι) :
    ∃ y, x.flip (2 ^ b) mask = some y ∧
      ∀ row col, y.element row col = x.element row (col ^^^ mask) := by
  have hspan : 2 ^ b % nextPowerOfTwo (mask + 1) = 0 :=
    Nat.mod_eq_zero_of_dvd (Nat.pow_dvd_pow 2 (Nat.clog_le_of_le_pow hlt))
  refine ⟨⟨_, _⟩, ?_, fun row col => rfl⟩
  simp only [Pair.flip, Tile.flip, if_pos (And.intro hpos hspan)]
  rfl

/-! ## Sequences -/

/-- The tiles hold `X row` in each row, `w` elements a tile. -/
def Holds (w : ℕ) (seq : List (Pair σ ι)) (X : ℕ → ℕ → σ ×ₗ ι) : Prop :=
  ∀ t x, seq[t]? = some x → ∀ row, ∀ col < w, x.element row col = X row (t * w + col)

/-- The elements of a row. -/
def elements (w row : ℕ) (seq : List (Pair σ ι)) : List (σ ×ₗ ι) :=
  seq.flatMap fun x => (List.range w).map (x.element row)

omit [LinearOrder σ] [LinearOrder ι] in
theorem Holds.congr {w : ℕ} {seq : List (Pair σ ι)} {X Y : ℕ → ℕ → σ ×ₗ ι} (h : Holds w seq X)
    (hXY : ∀ row, ∀ p < seq.length * w, X row p = Y row p) : Holds w seq Y := by
  intro t x hx row col hcol
  rw [h t x hx row col hcol, hXY]
  have ht := (List.getElem?_eq_some_iff.mp hx).1
  calc t * w + col < (t + 1) * w := by rw [Nat.add_mul, Nat.one_mul]; omega
    _ ≤ seq.length * w := Nat.mul_le_mul_right _ ht

omit [LinearOrder σ] [LinearOrder ι] in
theorem elements_eq {w : ℕ} {seq : List (Pair σ ι)} {X : ℕ → ℕ → σ ×ₗ ι} (h : Holds w seq X)
    (row : ℕ) : elements w row seq = (List.range (seq.length * w)).map (X row) := by
  induction seq generalizing X with
  | nil => rw [List.length_nil, Nat.zero_mul]; rfl
  | cons x seq ih =>
    have htail : Holds w seq fun row p => X row (w + p) := by
      intro t y hy row col hcol
      rw [h (t + 1) y hy row col hcol]
      congr 1
      rw [Nat.add_mul, Nat.one_mul]
      omega
    rw [elements, List.flatMap_cons, ← elements, ih htail, List.length_cons, Nat.add_mul,
      Nat.one_mul, Nat.add_comm, List.range_add, List.map_append, List.map_map]
    congr 1
    refine List.map_congr_left fun col hcol => ?_
    rw [h 0 x rfl row col (List.mem_range.mp hcol), Nat.zero_mul, Nat.zero_add]

omit [LinearOrder σ] [LinearOrder ι] in
theorem exists_holds {w : ℕ} {seq : List (Pair σ ι)} (hne : seq ≠ []) : ∃ X, Holds w seq X := by
  obtain ⟨d, hd⟩ := List.exists_mem_of_ne_nil seq hne
  refine ⟨fun row p => (seq.getD (p / w) d).element row (p % w), ?_⟩
  intro t x hx row col hcol
  have hdiv : (t * w + col) / w = t := by
    rw [Nat.mul_comm, Nat.mul_add_div (by omega), Nat.div_eq_of_lt hcol, Nat.add_zero]
  have hmod : (t * w + col) % w = col := by
    rw [Nat.mul_comm, Nat.mul_add_mod, Nat.mod_eq_of_lt hcol]
  show _ = (seq.getD ((t * w + col) / w) d).element row ((t * w + col) % w)
  rw [hdiv, hmod, List.getD_eq_getElem?_getD, hx, Option.getD_some]

/-! ## Bits of positions -/

theorem and_two_pow_eq_zero {n s : ℕ} : n &&& 2 ^ s = 0 ↔ n.testBit s = false := by
  rw [Nat.and_two_pow]
  cases n.testBit s
  · simp
  · simp

omit [LinearOrder σ] [LinearOrder ι] in
theorem bit_eq (k row col : ℕ) : bit (2 ^ k) row col = col.testBit k := by
  have hdiv : col / (2 * 2 ^ k) = col / 2 ^ k / 2 := by rw [Nat.mul_comm, Nat.div_div_eq_div_mul]
  rw [bit, hdiv, Nat.testBit_eq_decide_div_mod_eq]
  congr 1
  rw [eq_iff_iff]
  omega

/-- Of a column's position a bit of the width is the column's, a higher one the tile's. -/
theorem testBit_position {b t col i : ℕ} (hcol : col < 2 ^ b) :
    (t * 2 ^ b + col).testBit i = if i < b then col.testBit i else (t * 2 ^ b).testBit i := by
  have hzero := Nat.testBit_two_pow_mul_add t (Nat.two_pow_pos b) i
  rw [Nat.add_zero] at hzero
  rw [Nat.mul_comm, Nat.testBit_two_pow_mul_add t hcol, hzero]
  by_cases hi : i < b <;> simp [hi]

theorem xor_position_low {b t col i : ℕ} (hcol : col < 2 ^ b) (hi : i < b) :
    (t * 2 ^ b + col) ^^^ 2 ^ i = t * 2 ^ b + (col ^^^ 2 ^ i) := by
  have hcol' : col ^^^ 2 ^ i < 2 ^ b :=
    Nat.xor_lt_two_pow hcol (Nat.pow_lt_pow_right (by decide) hi)
  apply Nat.eq_of_testBit_eq
  intro j
  rw [Nat.testBit_xor, testBit_position hcol, testBit_position hcol', Nat.testBit_xor]
  split
  · rfl
  · rw [Nat.testBit_two_pow_of_ne (by omega), Bool.xor_false]

theorem xor_position_high {b t col j : ℕ} (hcol : col < 2 ^ b) :
    (t * 2 ^ b + col) ^^^ 2 ^ (b + j) = (t ^^^ 2 ^ j) * 2 ^ b + col := by
  apply Nat.eq_of_testBit_eq
  intro k
  rw [Nat.testBit_xor, testBit_position hcol, testBit_position hcol]
  split
  · rw [Nat.testBit_two_pow_of_ne (by omega), Bool.xor_false]
  · next hk =>
    have hk : b ≤ k := by omega
    have hj : (b + j = k) ↔ j = k - b := by omega
    rw [Nat.testBit_mul_two_pow, Nat.testBit_mul_two_pow, Nat.testBit_xor, Nat.testBit_two_pow,
      Nat.testBit_two_pow]
    simp [hk, hj]

/-! ## Stages within a tile -/

/-- The columns of a tile ordered are those of its stage. -/
theorem orderColumns_spec {b s i t : ℕ} (hi : i < b) {x : Pair σ ι} {X : ℕ → ℕ → σ ×ₗ ι}
    (hx : ∀ row, ∀ col < 2 ^ b, x.element row col = X row (t * 2 ^ b + col)) :
    ∃ y, orderColumns (2 ^ b) (2 ^ s) (2 ^ i) x t = some y ∧
      ∀ row, ∀ col < 2 ^ b, y.element row col = stage s i (X row) (t * 2 ^ b + col) := by
  obtain ⟨partner, hflip, hpartner⟩ :=
    flip_eq (Nat.two_pow_pos i) (Nat.pow_lt_pow_right (by decide) hi) x
  refine ⟨_, by rw [orderColumns, hflip]; rfl, fun row col hcol => ?_⟩
  have hkeep : (if 2 ^ b ≤ 2 ^ s then
      if t * 2 ^ b &&& 2 ^ s = 0 then bit (2 ^ i) else fun row col => !bit (2 ^ i) row col
      else fun row col => bit (2 ^ i) row col != bit (2 ^ s) row col : Tile Bool) row col =
      keepsLast s i (t * 2 ^ b + col) := by
    rw [keepsLast, testBit_position hcol, testBit_position hcol, if_pos hi]
    by_cases hs : s < b
    · rw [if_pos hs, if_neg (by rw [Nat.pow_le_pow_iff_right (by decide)]; omega), bit_eq, bit_eq]
    · rw [if_neg hs, if_pos (Nat.pow_le_pow_right (by decide) (by omega))]
      simp only [and_two_pow_eq_zero]
      cases (t * 2 ^ b).testBit s
      · rw [if_pos rfl, bit_eq, Bool.bne_false]
      · rw [if_neg (by decide), bit_eq, Bool.bne_true]
  rw [where_element, before_eq, hkeep, stage, hpartner, hx row col hcol,
    hx row _ (Nat.xor_lt_two_pow hcol (Nat.pow_lt_pow_right (by decide) hi)),
    xor_position_low hcol hi]
  generalize X row (t * 2 ^ b + col) = v
  generalize X row (t * 2 ^ b + (col ^^^ 2 ^ i)) = u
  cases keepsLast s i (t * 2 ^ b + col)
  · simp only [Bool.bne_false, decide_eq_true_eq, Bool.false_eq_true, if_false]
    split
    · next h => exact (min_eq_right h.le).symm
    · next h => exact (min_eq_left (not_lt.mp h)).symm
  · simp only [Bool.bne_true, Bool.not_eq_true', decide_eq_false_iff_not, if_true]
    split
    · next h => exact (max_eq_right (not_lt.mp h)).symm
    · next h => exact (max_eq_left (not_not.mp h).le).symm

/-- Where every element has an image, the list has the list of the images. -/
theorem mapM_forall₂ {α β : Type} {f : α → Option β} {R : α → β → Prop} {xs : List α}
    (h : ∀ x ∈ xs, ∃ y, f x = some y ∧ R x y) :
    ∃ ys, xs.mapM f = some ys ∧ List.Forall₂ R xs ys := by
  induction xs with
  | nil => exact ⟨[], rfl, .nil⟩
  | cons x xs ih =>
    obtain ⟨⟨y, hy, hR⟩, hxs⟩ := List.forall_mem_cons.mp h
    obtain ⟨ys, hys, hRs⟩ := ih hxs
    exact ⟨y :: ys, by rw [List.mapM_cons, hy, hys]; rfl, .cons hR hRs⟩

/-- A stage of a distance within the tiles. -/
theorem orderStage_columns {b s i : ℕ} (hi : i < b) {seq : List (Pair σ ι)}
    {X : ℕ → ℕ → σ ×ₗ ι} (h : Holds (2 ^ b) seq X) :
    ∃ out, orderStage (2 ^ b) (2 ^ s) (2 ^ i) seq = some out ∧ out.length = seq.length ∧
      Holds (2 ^ b) out fun row => stage s i (X row) := by
  have hlt : ¬ 2 ^ b ≤ 2 ^ i := not_le.mpr (Nat.pow_lt_pow_right (by decide) hi)
  rw [orderStage, if_neg hlt]
  obtain ⟨out, hout, hall⟩ := @mapM_forall₂ _ _
    (fun xt => orderColumns (2 ^ b) (2 ^ s) (2 ^ i) xt.1 xt.2)
    (fun xt y => ∀ row, ∀ col < 2 ^ b,
      y.element row col = stage s i (X row) (xt.2 * 2 ^ b + col)) seq.zipIdx fun xt hxt =>
    orderColumns_spec hi (h xt.2 xt.1 (List.mk_mem_zipIdx_iff_getElem?.mp hxt))
  have hlen : out.length = seq.length := by rw [← hall.length_eq, List.length_zipIdx]
  refine ⟨out, hout, hlen, fun t y hy row col hcol => ?_⟩
  obtain ⟨ht, rfl⟩ := List.getElem?_eq_some_iff.mp hy
  have hpair := List.forall₂_iff_get.mp hall
  have := hpair.2 t (by rw [List.length_zipIdx]; omega) ht row col hcol
  simpa using this

/-! ## Stages of whole tiles -/

section Apart

variable {b j s : ℕ}

omit [LinearOrder σ] [LinearOrder ι] in
theorem Holds.set {w t : ℕ} {seq : List (Pair σ ι)} {x : Pair σ ι} {X Y : ℕ → ℕ → σ ×ₗ ι}
    (h : Holds w seq X) (hx : ∀ row, ∀ col < w, x.element row col = Y row (t * w + col)) :
    Holds w (seq.set t x) fun row p => if p / w = t then Y row p else X row p := by
  intro u y hy row col hcol
  have hdiv : (u * w + col) / w = u := by
    rw [Nat.mul_comm, Nat.mul_add_div (by omega), Nat.div_eq_of_lt hcol, Nat.add_zero]
  show _ = if (u * w + col) / w = t then Y row (u * w + col) else X row (u * w + col)
  rw [hdiv]
  rcases eq_or_ne u t with rfl | hne
  · rw [if_pos rfl]
    have hlt := (List.getElem?_eq_some_iff.mp hy).1
    rw [List.getElem?_set_self (by simpa using hlt)] at hy
    cases hy
    exact hx row col hcol
  · rw [if_neg hne]
    rw [List.getElem?_set_ne hne.symm] at hy
    exact h u y hy row col hcol

theorem or_two_pow_eq_xor {t : ℕ} (h : t.testBit j = false) : t ||| 2 ^ j = t ^^^ 2 ^ j := by
  apply Nat.eq_of_testBit_eq
  intro k
  rw [Nat.testBit_or, Nat.testBit_xor, Nat.testBit_two_pow]
  by_cases hk : j = k
  · subst hk
    simp [h]
  · simp [hk]

theorem or_two_pow_eq_self {t : ℕ} (h : t.testBit j = true) : t ||| 2 ^ j = t := by
  apply Nat.eq_of_testBit_eq
  intro k
  rw [Nat.testBit_or, Nat.testBit_two_pow]
  by_cases hk : j = k
  · subst hk
    simp [h]
  · simp [hk]

theorem or_two_pow_eq_iff {t v : ℕ} (h : t.testBit j = false) :
    v ||| 2 ^ j = t ||| 2 ^ j ↔ v = t ∨ v = t ||| 2 ^ j := by
  constructor
  · intro hor
    cases hv : v.testBit j with
    | true => exact .inr ((or_two_pow_eq_self hv).symm.trans hor)
    | false =>
      left
      rw [or_two_pow_eq_xor hv, or_two_pow_eq_xor h] at hor
      rw [← Nat.xor_xor_cancel_right v (2 ^ j), hor, Nat.xor_xor_cancel_right]
  · rintro (rfl | rfl)
    · rfl
    · rw [Nat.or_assoc, Nat.or_self]

/-- The tiles of a pair after their stage. -/
theorem stage_tiles {t : ℕ} (hbit : t.testBit j = false) (hs : b + j < s) (x : ℕ → σ ×ₗ ι)
    {col : ℕ} (hcol : col < 2 ^ b) :
    let low := x (t * 2 ^ b + col)
    let high := x ((t ||| 2 ^ j) * 2 ^ b + col)
    (stage s (b + j) x (t * 2 ^ b + col) =
        if t * 2 ^ b &&& 2 ^ s = 0 then min low high else max low high) ∧
      stage s (b + j) x ((t ||| 2 ^ j) * 2 ^ b + col) =
        if t * 2 ^ b &&& 2 ^ s = 0 then max low high else min low high := by
  have hpartner : (t * 2 ^ b + col) ^^^ 2 ^ (b + j) = (t ||| 2 ^ j) * 2 ^ b + col := by
    rw [xor_position_high hcol, or_two_pow_eq_xor hbit]
  have hlow : keepsLast s (b + j) (t * 2 ^ b + col) = (t * 2 ^ b).testBit s := by
    rw [keepsLast, testBit_position hcol, testBit_position hcol, if_neg (by omega),
      if_neg (by omega), Nat.testBit_mul_two_pow, Nat.add_sub_cancel_left, hbit, Bool.and_false,
      Bool.false_bne]
  have hhigh : keepsLast s (b + j) ((t ||| 2 ^ j) * 2 ^ b + col) = !(t * 2 ^ b).testBit s := by
    rw [← hpartner, keepsLast_xor (by omega), hlow]
  simp only [and_two_pow_eq_zero]
  rw [stage, stage, hlow, hhigh, ← hpartner, Nat.xor_xor_cancel_right]
  cases (t * 2 ^ b).testBit s
  · exact ⟨rfl, max_comm _ _⟩
  · exact ⟨rfl, min_comm _ _⟩

/-- Two tiles ordered take the values of their stage, the others keep theirs. -/
theorem orderTiles_spec {t : ℕ} (hbit : t.testBit j = false) (hs : b + j < s)
    {seq : List (Pair σ ι)} (ht : t ||| 2 ^ j < seq.length) {X : ℕ → ℕ → σ ×ₗ ι}
    (h : Holds (2 ^ b) seq X) :
    ∃ out, orderTiles (2 ^ b) (2 ^ s) (2 ^ j) seq t = some out ∧ out.length = seq.length ∧
      Holds (2 ^ b) out fun row p =>
        if p / 2 ^ b ||| 2 ^ j = t ||| 2 ^ j then stage s (b + j) (X row) p else X row p := by
  obtain ⟨x, hx⟩ : ∃ x, seq[t]? = some x :=
    ⟨_, List.getElem?_eq_getElem (lt_of_le_of_lt Nat.left_le_or ht)⟩
  obtain ⟨y, hy⟩ : ∃ y, seq[t ||| 2 ^ j]? = some y := ⟨_, List.getElem?_eq_getElem ht⟩
  have hset : ∀ u v : Pair σ ι,
      (∀ row, ∀ col < 2 ^ b, u.element row col = stage s (b + j) (X row) (t * 2 ^ b + col)) →
      (∀ row, ∀ col < 2 ^ b,
        v.element row col = stage s (b + j) (X row) ((t ||| 2 ^ j) * 2 ^ b + col)) →
      Holds (2 ^ b) ((seq.set t u).set (t ||| 2 ^ j) v) fun row p =>
        if p / 2 ^ b ||| 2 ^ j = t ||| 2 ^ j then stage s (b + j) (X row) p else X row p := by
    intro u v hu hv
    refine ((h.set (Y := fun row => stage s (b + j) (X row)) hu).set
      (Y := fun row => stage s (b + j) (X row)) hv).congr fun row p _ => ?_
    simp only [or_two_pow_eq_iff hbit]
    by_cases hhigh : p / 2 ^ b = t ||| 2 ^ j
    · rw [if_pos hhigh, if_pos (.inr hhigh)]
    · by_cases hlow : p / 2 ^ b = t
      · rw [if_neg hhigh, if_pos hlow, if_pos (.inl hlow)]
      · rw [if_neg hhigh, if_neg hlow, if_neg (not_or.mpr ⟨hlow, hhigh⟩)]
  have hvalue : ∀ row, ∀ col < 2 ^ b, _ := fun row col hcol =>
    stage_tiles hbit hs (X row) hcol
  rw [orderTiles, hx, hy]
  by_cases hup : t * 2 ^ b &&& 2 ^ s = 0
  · refine ⟨_, if_pos hup, by simp, hset _ _ ?_ ?_⟩
    · intro row col hcol
      rw [(where_before x y row col).1, (hvalue row col hcol).1, if_pos hup, h t x hx row col hcol,
        h _ y hy row col hcol]
    · intro row col hcol
      rw [(where_before x y row col).2, (hvalue row col hcol).2, if_pos hup, h t x hx row col hcol,
        h _ y hy row col hcol]
  · refine ⟨_, if_neg hup, by simp, hset _ _ ?_ ?_⟩
    · intro row col hcol
      rw [(where_before x y row col).2, (hvalue row col hcol).1, if_neg hup, h t x hx row col hcol,
        h _ y hy row col hcol]
    · intro row col hcol
      rw [(where_before x y row col).1, (hvalue row col hcol).2, if_neg hup, h t x hx row col hcol,
        h _ y hy row col hcol]

/-- The tiles of a list of pairs, no pair twice, take the values of their stage. -/
theorem orderTiles_foldlM (hs : b + j < s) {ts : List ℕ} (hnodup : ts.Nodup)
    {seq : List (Pair σ ι)} (hts : ∀ t ∈ ts, t.testBit j = false ∧ t ||| 2 ^ j < seq.length)
    {X : ℕ → ℕ → σ ×ₗ ι} (h : Holds (2 ^ b) seq X) :
    ∃ out, ts.foldlM (orderTiles (2 ^ b) (2 ^ s) (2 ^ j)) seq = some out ∧
      out.length = seq.length ∧
      Holds (2 ^ b) out fun row p =>
        if ∃ t ∈ ts, p / 2 ^ b ||| 2 ^ j = t ||| 2 ^ j then stage s (b + j) (X row) p
        else X row p := by
  induction ts generalizing seq X with
  | nil => exact ⟨seq, rfl, rfl, by simpa using h⟩
  | cons t ts ih =>
    obtain ⟨⟨hbit, hlt⟩, htail⟩ := List.forall_mem_cons.mp hts
    obtain ⟨hfresh, hnodup⟩ := List.nodup_cons.mp hnodup
    obtain ⟨mid, hmid, hmidLen, hmidHolds⟩ := orderTiles_spec hbit hs hlt h
    rw [← hmidLen] at htail
    obtain ⟨out, hout, hlen, hholds⟩ := ih hnodup htail hmidHolds
    refine ⟨out, by rw [List.foldlM_cons, hmid]; exact hout, hlen.trans hmidLen, ?_⟩
    refine hholds.congr fun row p _ => ?_
    by_cases hin : ∃ t' ∈ ts, p / 2 ^ b ||| 2 ^ j = t' ||| 2 ^ j
    · -- neither the element nor its partner is in the first pair
      rw [if_pos hin, if_pos (hin.imp fun t' h => ⟨List.mem_cons_of_mem _ h.1, h.2⟩)]
      obtain ⟨t', hmem, heq⟩ := hin
      have hbit' := (htail t' hmem).1
      have hne : p / 2 ^ b ||| 2 ^ j ≠ t ||| 2 ^ j := by
        intro h
        rw [heq, or_two_pow_eq_iff hbit] at h
        rcases h with rfl | rfl
        · exact hfresh hmem
        · rw [Nat.testBit_or, Nat.testBit_two_pow_self, Bool.or_true] at hbit'
          exact absurd hbit' (by decide)
      have hpartner : (p ^^^ 2 ^ (b + j)) / 2 ^ b ||| 2 ^ j = p / 2 ^ b ||| 2 ^ j := by
        rw [Nat.xor_div_two_pow, Nat.pow_add, Nat.mul_div_cancel_left _ (Nat.two_pow_pos b)]
        apply Nat.eq_of_testBit_eq
        intro k
        rw [Nat.testBit_or, Nat.testBit_or, Nat.testBit_xor]
        cases (2 ^ j).testBit k <;> simp
      rw [stage, stage, if_neg hne, hpartner, if_neg hne]
    · rw [if_neg hin]
      by_cases hfirst : p / 2 ^ b ||| 2 ^ j = t ||| 2 ^ j
      · rw [if_pos hfirst, if_pos ⟨t, List.mem_cons_self, hfirst⟩]
      · rw [if_neg hfirst, if_neg]
        rintro ⟨t', hmem, heq⟩
        rcases List.mem_cons.mp hmem with rfl | hmem
        · exact hfirst heq
        · exact hin ⟨t', hmem, heq⟩

/-- A stage of a distance of whole tiles. -/
theorem orderStage_tiles {n : ℕ} (hj : j < n) (hs : b + j < s) {seq : List (Pair σ ι)}
    (hlen : seq.length = 2 ^ n) {X : ℕ → ℕ → σ ×ₗ ι} (h : Holds (2 ^ b) seq X) :
    ∃ out, orderStage (2 ^ b) (2 ^ s) (2 ^ (b + j)) seq = some out ∧ out.length = seq.length ∧
      Holds (2 ^ b) out fun row => stage s (b + j) (X row) := by
  have hapart : 2 ^ (b + j) / 2 ^ b = 2 ^ j := by
    rw [Nat.pow_add, Nat.mul_div_cancel_left _ (Nat.two_pow_pos b)]
  have hpow : 2 ^ j < 2 ^ n := Nat.pow_lt_pow_right (by decide) hj
  rw [orderStage, if_pos (Nat.pow_le_pow_right (by decide) (by omega)), hapart]
  have hts : ∀ t ∈ (List.range seq.length).filter fun t => t &&& 2 ^ j = 0,
      t.testBit j = false ∧ t ||| 2 ^ j < seq.length := by
    intro t ht
    rw [List.mem_filter, List.mem_range, decide_eq_true_eq, and_two_pow_eq_zero] at ht
    exact ⟨ht.2, hlen ▸ Nat.or_lt_two_pow (hlen ▸ ht.1) hpow⟩
  obtain ⟨out, hout, houtLen, hholds⟩ := orderTiles_foldlM hs (List.nodup_range.filter _) hts h
  refine ⟨out, hout, houtLen, hholds.congr fun row p hp => ?_⟩
  rw [if_pos]
  have hu : p / 2 ^ b < seq.length := by
    rw [Nat.div_lt_iff_lt_mul (Nat.two_pow_pos b)]
    rwa [houtLen] at hp
  -- the tile of the element with the bit cleared
  cases hbit : (p / 2 ^ b).testBit j with
  | false =>
    refine ⟨p / 2 ^ b, ?_, rfl⟩
    rw [List.mem_filter, List.mem_range, decide_eq_true_eq, and_two_pow_eq_zero]
    exact ⟨hu, hbit⟩
  | true =>
    have hclear : (p / 2 ^ b ^^^ 2 ^ j).testBit j = false := by
      rw [Nat.testBit_xor, hbit, Nat.testBit_two_pow_self]
      rfl
    refine ⟨p / 2 ^ b ^^^ 2 ^ j, ?_, ?_⟩
    · rw [List.mem_filter, List.mem_range, decide_eq_true_eq, and_two_pow_eq_zero]
      exact ⟨hlen ▸ Nat.xor_lt_two_pow (hlen ▸ hu) hpow, hclear⟩
    · rw [or_two_pow_eq_self hbit, or_two_pow_eq_xor hclear, Nat.xor_xor_cancel_right]

end Apart

/-! ## Networks -/

section Networks

variable {b n : ℕ} {seq : List (Pair σ ι)} {X : ℕ → ℕ → σ ×ₗ ι}

/-- The distances below `2 ^ k` of a size. -/
theorem orderBlock_spec {s k : ℕ} (hk : k ≤ s) (hkn : k ≤ n + b) (hlen : seq.length = 2 ^ n)
    (h : Holds (2 ^ b) seq X) :
    ∃ out, orderBlock (2 ^ b) (2 ^ s) (2 ^ k / 2) seq = some out ∧ out.length = seq.length ∧
      Holds (2 ^ b) out fun row => merge s k (X row) := by
  induction k generalizing seq X with
  | zero => exact ⟨seq, by rw [orderBlock]; rfl, rfl, h⟩
  | succ k ih =>
    have hhalf : 2 ^ (k + 1) / 2 = 2 ^ k := by rw [Nat.pow_succ, Nat.mul_div_cancel _ (by decide)]
    have hstage : ∃ out, orderStage (2 ^ b) (2 ^ s) (2 ^ k) seq = some out ∧
        out.length = seq.length ∧ Holds (2 ^ b) out fun row => stage s k (X row) := by
      rcases lt_or_ge k b with hlt | hge
      · exact orderStage_columns hlt h
      · obtain ⟨j, rfl⟩ := Nat.exists_eq_add_of_le hge
        exact orderStage_tiles (by omega) (by omega) hlen h
    obtain ⟨mid, hmid, hmidLen, hmidHolds⟩ := hstage
    obtain ⟨out, hout, houtLen, hholds⟩ := ih (by omega) (by omega) (hmidLen.trans hlen) hmidHolds
    refine ⟨out, ?_, houtLen.trans hmidLen, hholds⟩
    rw [hhalf, orderBlock, if_neg (Nat.two_pow_pos k).ne', hmid]
    exact hout

theorem network_eq (hlen : seq.length = 2 ^ n) (sizes : List ℕ) :
    network (2 ^ b) seq sizes =
      sizes.foldlM (fun seq size => orderBlock (2 ^ b) size (size / 2) seq) seq := by
  rw [network, hlen, isPowerOfTwo_two_pow, isPowerOfTwo_two_pow]
  rfl

/-- The network of the doubling sizes is the sort. -/
theorem network_sort (hlen : seq.length = 2 ^ n) (h : Holds (2 ^ b) seq X) :
    ∃ out, network (2 ^ b) seq (doubling (seq.length * 2 ^ b)) = some out ∧
      out.length = seq.length ∧ Holds (2 ^ b) out fun row => sort (n + b) (X row) := by
  have hrun : ∀ k ≤ n + b, ∃ out, ((List.range' 1 k).map (2 ^ ·)).foldlM
      (fun seq size => orderBlock (2 ^ b) size (size / 2) seq) seq = some out ∧
      out.length = seq.length ∧ Holds (2 ^ b) out fun row => sort k (X row) := by
    intro k hk
    induction k with
    | zero => exact ⟨seq, rfl, rfl, h⟩
    | succ k ih =>
      obtain ⟨mid, hmid, hmidLen, hmidHolds⟩ := ih (by omega)
      obtain ⟨out, hout, houtLen, hholds⟩ :=
        orderBlock_spec (s := k + 1) (k := k + 1) le_rfl hk (hmidLen.trans hlen) hmidHolds
      refine ⟨out, ?_, houtLen.trans hmidLen, hholds⟩
      rw [List.range'_1_concat, List.map_append, List.foldlM_append, hmid, Nat.add_comm 1 k]
      exact (bind_pure _).trans hout
  have hlog : (seq.length * 2 ^ b).log2 = n + b := by rw [hlen, ← Nat.pow_add, Nat.log2_two_pow]
  rw [network_eq hlen, doubling, hlog]
  exact hrun _ le_rfl

/-- The network of the whole length alone is the last merge. -/
theorem network_merge (hlen : seq.length = 2 ^ n) (h : Holds (2 ^ b) seq X) :
    ∃ out, network (2 ^ b) seq [seq.length * 2 ^ b] = some out ∧ out.length = seq.length ∧
      Holds (2 ^ b) out fun row => merge (n + b) (n + b) (X row) := by
  obtain ⟨out, hout, houtLen, hholds⟩ := orderBlock_spec (s := n + b) le_rfl le_rfl hlen h
  refine ⟨out, ?_, houtLen, hholds⟩
  rw [network_eq hlen, List.foldlM_cons, hlen, ← Nat.pow_add]
  exact (bind_pure _).trans hout

end Networks

/-! ## A run reversed against another -/

section Reversed

variable {b : ℕ}

theorem xor_two_pow_sub_one {col : ℕ} (hcol : col < 2 ^ b) :
    col ^^^ (2 ^ b - 1) = 2 ^ b - 1 - col := by
  apply Nat.eq_of_testBit_eq
  intro i
  rw [Nat.testBit_xor, Nat.testBit_two_pow_sub_one, show 2 ^ b - 1 - col = 2 ^ b - (col + 1) by omega,
    Nat.testBit_two_pow_sub_succ hcol]
  by_cases hi : i < b
  · simp [hi]
  · rw [Nat.testBit_lt_two_pow (hcol.trans_le (Nat.pow_le_pow_right (by decide) (not_lt.mp hi)))]
    simp [hi]

omit [LinearOrder σ] [LinearOrder ι] in
theorem flip_reverse (hb : 0 < b) (x : Pair σ ι) :
    ∃ y, x.flip (2 ^ b) (2 ^ b - 1) = some y ∧
      ∀ row, ∀ col < 2 ^ b, y.element row col = x.element row (2 ^ b - 1 - col) := by
  have hpow : 2 ^ 1 ≤ 2 ^ b := Nat.pow_le_pow_right (by decide) hb
  obtain ⟨y, hy, helement⟩ := @flip_eq _ _ b (2 ^ b - 1) (by omega) (by omega) x
  exact ⟨y, hy, fun row col hcol => by rw [helement, xor_two_pow_sub_one hcol]⟩

/-- The position of a reversed element. -/
theorem reversed_position {w len t col : ℕ} (ht : t < len) (hcol : col < w) :
    len * w - 1 - ((len - 1 - t) * w + col) = t * w + (w - 1 - col) := by
  obtain ⟨r, rfl⟩ := Nat.exists_eq_add_of_lt ht
  have hmul : (t + r + 1) * w = t * w + r * w + w := by rw [Nat.add_mul, Nat.add_mul, Nat.one_mul]
  rw [show t + r + 1 - 1 - t = r by omega, hmul]
  omega

theorem reversed_position_lt {w len u col j : ℕ} (hu : u < len) (hcol : col < w) :
    len * w - 1 - (u * w + col) < j * w ↔ len - 1 - u < j := by
  have h := @reversed_position w len (len - 1 - u) col (by omega) hcol
  rw [show len - 1 - (len - 1 - u) = u by omega] at h
  rw [h]
  constructor
  · intro hlt
    by_contra hge
    have := Nat.mul_le_mul_right w (not_lt.mp hge)
    omega
  · intro hlt
    have := Nat.mul_le_mul_right w hlt
    rw [Nat.succ_mul] at this
    omega

/-- The tiles of a queue against the list's slots, from the last on. -/
theorem keepEarlier_foldlM (hb : 0 < b) {qs : List (Pair σ ι)} {k : ℕ} {list : List (Pair σ ι)}
    (hk : k + qs.length ≤ list.length) {X Y : ℕ → ℕ → σ ×ₗ ι}
    (hq : ∀ t q, qs[t]? = some q → ∀ row, ∀ col < 2 ^ b,
      q.element row col = Y row ((k + t) * 2 ^ b + col))
    (h : Holds (2 ^ b) list fun row =>
      lower (list.length * 2 ^ b) (k * 2 ^ b) (X row) (Y row)) :
    ∃ out, (qs.zipIdx k).foldlM (keepEarlier (2 ^ b)) list = some out ∧
      out.length = list.length ∧ Holds (2 ^ b) out fun row =>
        lower (list.length * 2 ^ b) ((k + qs.length) * 2 ^ b) (X row) (Y row) := by
  induction qs generalizing k list with
  | nil => exact ⟨list, rfl, rfl, h⟩
  | cons q qs ih =>
    rw [List.length_cons] at hk
    obtain ⟨rev, hflip, hrev⟩ := flip_reverse hb q
    have hat : list.length - 1 - k < list.length := by omega
    obtain ⟨held, hheld⟩ : ∃ held, list[list.length - 1 - k]? = some held :=
      ⟨_, List.getElem?_eq_getElem hat⟩
    have hstep : keepEarlier (2 ^ b) list (q, k) =
        some (list.set (list.length - 1 - k) (Pair.where_ (before held rev) held rev)) := by
      simp only [keepEarlier, hflip, hheld]
      rfl
    obtain ⟨mid, hmidEq⟩ : ∃ mid, mid =
        list.set (list.length - 1 - k) (Pair.where_ (before held rev) held rev) := ⟨_, rfl⟩
    have hlen : mid.length = list.length := by rw [hmidEq, List.length_set]
    have hmid : Holds (2 ^ b) mid fun row =>
        lower (list.length * 2 ^ b) ((k + 1) * 2 ^ b) (X row) (Y row) := by
      rw [hmidEq]
      refine (h.set (Y := fun row => lower (list.length * 2 ^ b) ((k + 1) * 2 ^ b) (X row) (Y row))
        fun row col hcol => ?_).congr fun row p hp => ?_
      · rw [(where_before held rev row col).1, hrev row col hcol, h _ held hheld row col hcol,
          hq 0 q rfl row _ (by omega)]
        simp only [lower]
        rw [if_neg, if_pos, reversed_position (by omega) hcol, Nat.add_zero]
        · rw [reversed_position_lt hat hcol]
          omega
        · rw [reversed_position_lt hat hcol]
          omega
      · -- in the other tiles the bound makes no difference
        split
        · rfl
        · next hne =>
          rw [List.length_set] at hp
          have hu : p / 2 ^ b < list.length := (Nat.div_lt_iff_lt_mul (Nat.two_pow_pos b)).mpr hp
          have hmod := Nat.mod_lt p (Nat.two_pow_pos b)
          have hlt := fun j => reversed_position_lt (j := j) hu hmod
          simp only [Nat.mul_comm (p / 2 ^ b), Nat.div_add_mod] at hlt
          have hiff : list.length - 1 - p / 2 ^ b < k + 1 ↔ list.length - 1 - p / 2 ^ b < k := by
            omega
          simp only [lower, hlt, hiff]
    rw [← hlen] at hmid
    obtain ⟨out, hout, houtLen, hholds⟩ := ih (k := k + 1) (by rw [hlen]; omega)
      (fun t q' hq' => by
        have := hq (t + 1) q' hq'
        rwa [show k + (t + 1) = k + 1 + t by omega] at this) hmid
    refine ⟨out, ?_, houtLen.trans hlen, ?_⟩
    · rw [List.zipIdx_cons, List.foldlM_cons, hstep, ← hmidEq]
      exact hout
    · rw [hlen, show k + 1 + qs.length = k + (qs.length + 1) by omega] at hholds
      exact hholds

/-- The pairs of two runs of as many tiles, the second one reversed. -/
theorem orderReversed_mapM (hb : 0 < b) {as bs : List (Pair σ ι)} (hlen : bs.length = as.length)
    {X Y : ℕ → ℕ → σ ×ₗ ι} (ha : Holds (2 ^ b) as X) (hbs : Holds (2 ^ b) bs Y) :
    ∃ pairs, (as.zip bs.reverse).mapM (orderReversed (2 ^ b)) = some pairs ∧
      pairs.length = as.length ∧
      Holds (2 ^ b) (pairs.map Prod.fst) (fun row =>
        lower (as.length * 2 ^ b) (as.length * 2 ^ b) (X row) (Y row)) ∧
      Holds (2 ^ b) (pairs.map Prod.snd) fun row => upper (as.length * 2 ^ b) (X row) (Y row) := by
  obtain ⟨pairs, hpairs, hall⟩ := @mapM_forall₂ _ _
    (orderReversed (2 ^ b))
    (fun xy out => ∀ row, ∀ col < 2 ^ b,
      out.1.element row col = min (xy.1.element row col) (xy.2.element row (2 ^ b - 1 - col)) ∧
        out.2.element row col = max (xy.1.element row col) (xy.2.element row (2 ^ b - 1 - col)))
    (as.zip bs.reverse) fun xy _ => by
      obtain ⟨rev, hflip, hrev⟩ := flip_reverse hb xy.2
      refine ⟨_, by simp only [orderReversed, hflip]; rfl, fun row col hcol => ?_⟩
      rw [← hrev row col hcol]
      exact where_before xy.1 rev row col
  have hpairsLen : pairs.length = as.length := by
    rw [← hall.length_eq, List.length_zip, List.length_reverse, hlen, Nat.min_self]
  have hget : ∀ t p, pairs[t]? = some p → ∃ x y, as[t]? = some x ∧
      bs[as.length - 1 - t]? = some y ∧ t < as.length ∧ ∀ row, ∀ col < 2 ^ b,
        p.1.element row col = min (x.element row col) (y.element row (2 ^ b - 1 - col)) ∧
          p.2.element row col = max (x.element row col) (y.element row (2 ^ b - 1 - col)) := by
    intro t p hp
    obtain ⟨ht, rfl⟩ := List.getElem?_eq_some_iff.mp hp
    have hlt : t < as.length := hpairsLen ▸ ht
    have hzip : t < (as.zip bs.reverse).length := by rw [hall.length_eq]; exact ht
    have hpair := (List.forall₂_iff_get.mp hall).2 t hzip ht
    refine ⟨as[t], bs[as.length - 1 - t], List.getElem?_eq_getElem hlt,
      List.getElem?_eq_getElem (by omega), hlt, fun row col hcol => ?_⟩
    have := hpair row col hcol
    simpa [List.getElem_zip, List.getElem_reverse, hlen] using this
  refine ⟨pairs, hpairs, hpairsLen, ?_, ?_⟩
  · intro t x hx row col hcol
    rw [List.getElem?_map, Option.map_eq_some_iff] at hx
    obtain ⟨p, hp, rfl⟩ := hx
    obtain ⟨u, v, hu, hv, ht, helement⟩ := hget t p hp
    have hpos := @reversed_position (2 ^ b) as.length (as.length - 1 - t) col (by omega) hcol
    rw [show as.length - 1 - (as.length - 1 - t) = t by omega] at hpos
    rw [(helement row col hcol).1, ha t u hu row col hcol, hbs _ v hv row _ (by omega)]
    have hsize : 0 < as.length * 2 ^ b := Nat.mul_pos (by omega) (Nat.two_pow_pos b)
    simp only [lower]
    rw [if_pos (by omega), hpos]
  · intro t x hx row col hcol
    rw [List.getElem?_map, Option.map_eq_some_iff] at hx
    obtain ⟨p, hp, rfl⟩ := hx
    obtain ⟨u, v, hu, hv, ht, helement⟩ := hget t p hp
    have hpos := @reversed_position (2 ^ b) as.length (as.length - 1 - t) col (by omega) hcol
    rw [show as.length - 1 - (as.length - 1 - t) = t by omega] at hpos
    rw [(helement row col hcol).2, ha t u hu row col hcol, hbs _ v hv row _ (by omega)]
    simp only [upper]
    rw [hpos]

end Reversed

/-! ## Rows -/

section Rows

variable {b n : ℕ}

theorem pairwise_range_map {α : Type} [LinearOrder α] {n : ℕ} {x : ℕ → α} :
    ((List.range n).map x).Pairwise (· ≤ ·) ↔ ∀ p q, p ≤ q → q < n → x p ≤ x q := by
  rw [List.pairwise_map, List.pairwise_iff_getElem]
  simp only [List.length_range, List.getElem_range]
  constructor
  · intro h p q hpq hq
    rcases hpq.eq_or_lt with rfl | hlt
    · exact le_rfl
    · exact h p q (by omega) hq hlt
  · intro h p q _ hq hlt
    exact h p q hlt.le hq

omit [LinearOrder σ] [LinearOrder ι] in
theorem two_pow_mul {seq : List (Pair σ ι)} (hlen : seq.length = 2 ^ n) :
    seq.length * 2 ^ b = 2 ^ (n + b) := by rw [hlen, Nat.pow_add]

omit [LinearOrder σ] [LinearOrder ι] in
theorem ne_nil_of_length {seq : List (Pair σ ι)} (hlen : seq.length = 2 ^ n) : seq ≠ [] := by
  rintro rfl
  exact absurd hlen (Nat.two_pow_pos n).ne

/-- A sequence that is an arc at every threshold is in order after the last merge. -/
theorem network_merge_elements {seq : List (Pair σ ι)} (hlen : seq.length = 2 ^ n)
    {X : ℕ → ℕ → σ ×ₗ ι} (h : Holds (2 ^ b) seq X) :
    ∃ out, network (2 ^ b) seq [seq.length * 2 ^ b] = some out ∧ out.length = seq.length ∧
      ∀ row, (elements (2 ^ b) row out).Perm (elements (2 ^ b) row seq) ∧
        ((∀ c, IsArc (seq.length * 2 ^ b) fun p => c < X row p) →
          (elements (2 ^ b) row out).Pairwise (· ≤ ·)) := by
  obtain ⟨out, hout, houtLen, hholds⟩ := network_merge hlen h
  refine ⟨out, hout, houtLen, fun row => ⟨?_, fun harc => ?_⟩⟩
  · rw [elements_eq hholds, elements_eq h, houtLen, two_pow_mul hlen]
    exact merge_perm le_rfl le_rfl _
  · rw [elements_eq hholds, houtLen, pairwise_range_map, two_pow_mul hlen]
    rw [two_pow_mul hlen] at harc
    exact fun p q => merge_ordered harc

theorem network_sorts {seq : List (Pair σ ι)} (hlen : seq.length = 2 ^ n) :
    ∃ out, network (2 ^ b) seq (doubling (seq.length * 2 ^ b)) = some out ∧
      out.length = seq.length ∧
      ∀ row, (elements (2 ^ b) row out).Pairwise (· ≤ ·) ∧
        (elements (2 ^ b) row out).Perm (elements (2 ^ b) row seq) := by
  obtain ⟨X, h⟩ := exists_holds (w := 2 ^ b) (ne_nil_of_length hlen)
  obtain ⟨out, hout, houtLen, hholds⟩ := network_sort hlen h
  refine ⟨out, hout, houtLen, fun row => ?_⟩
  rw [elements_eq hholds, elements_eq h, houtLen, pairwise_range_map, two_pow_mul hlen]
  exact ⟨fun p q => sort_ordered _ _, sort_perm le_rfl _⟩

theorem network_merges {seq : List (Pair σ ι)} (hlen : seq.length = 2 ^ n) :
    ∃ out, network (2 ^ b) seq [seq.length * 2 ^ b] = some out ∧
      ∀ row, (elements (2 ^ b) row out).Perm (elements (2 ^ b) row seq) ∧
        (IsBitonic (elements (2 ^ b) row seq) →
          (elements (2 ^ b) row out).Pairwise (· ≤ ·)) := by
  obtain ⟨X, h⟩ := exists_holds (w := 2 ^ b) (ne_nil_of_length hlen)
  obtain ⟨out, hout, -, hrow⟩ := network_merge_elements hlen h
  refine ⟨out, hout, fun row => ⟨(hrow row).1, fun hbitonic => (hrow row).2 ?_⟩⟩
  rw [elements_eq h] at hbitonic
  exact hbitonic.isArc

/-- The earlier of two runs, kept and ordered. -/
theorem queuedInto_least (hb : 0 < b) {k : ℕ} {list queue : List (Pair σ ι)}
    (hlist : list.length = 2 ^ n) (hqueue : queue.length = 2 ^ k) :
    ∃ out, queuedInto (2 ^ b) list queue = some out ∧ out.length = list.length ∧
      ∀ row, (elements (2 ^ b) row list).Pairwise (· ≤ ·) →
        (elements (2 ^ b) row out).Pairwise (· ≤ ·) ∧
          ∃ rest, (elements (2 ^ b) row out ++ rest).Perm
              (elements (2 ^ b) row list ++ elements (2 ^ b) row queue) ∧
            ∀ u ∈ elements (2 ^ b) row out, ∀ v ∈ rest, u ≤ v := by
  obtain ⟨sorted, hsorted, hsortedLen, hsortedRow⟩ := network_sorts (b := b) hqueue
  obtain ⟨X, hX⟩ := exists_holds (w := 2 ^ b) (ne_nil_of_length hlist)
  obtain ⟨Y, hY⟩ := exists_holds (w := 2 ^ b) (ne_nil_of_length (hsortedLen.trans hqueue))
  have hzero : Holds (2 ^ b) list fun row =>
      lower (list.length * 2 ^ b) (0 * 2 ^ b) (X row) (Y row) := by
    refine hX.congr fun row p _ => ?_
    rw [lower, Nat.zero_mul, if_neg (Nat.not_lt_zero _)]
  have htake : ∀ t q, (sorted.take list.length)[t]? = some q → ∀ row, ∀ col < 2 ^ b,
      q.element row col = Y row ((0 + t) * 2 ^ b + col) := by
    intro t q hq row col hcol
    rw [List.getElem?_take] at hq
    split at hq
    · rw [Nat.zero_add]
      exact hY t q hq row col hcol
    · cases hq
  obtain ⟨kept, hkept, hkeptLen, hkeptHolds⟩ :=
    keepEarlier_foldlM hb (by rw [List.length_take]; omega) htake hzero
  -- past the list the queue has no partner
  have hkeptHolds : Holds (2 ^ b) kept fun row =>
      lower (list.length * 2 ^ b) (queue.length * 2 ^ b) (X row) (Y row) := by
    refine hkeptHolds.congr fun row p hp => ?_
    have hiff : list.length * 2 ^ b - 1 - p < (0 + (sorted.take list.length).length) * 2 ^ b ↔
        list.length * 2 ^ b - 1 - p < queue.length * 2 ^ b := by
      rw [hkeptLen] at hp
      rw [Nat.zero_add, List.length_take, hsortedLen, ← Nat.mul_min_mul_right, lt_min_iff]
      omega
    simp only [lower, hiff]
  obtain ⟨out, hout, houtLen, hrow⟩ := network_merge_elements (hkeptLen.trans hlist) hkeptHolds
  rw [hkeptLen] at hout hrow houtLen
  refine ⟨out, ?_, houtLen, fun row hasc => ?_⟩
  · rw [queuedInto, hsorted]
    simp only [Option.bind_eq_bind, Option.bind_some, hkept, hkeptLen]
    exact hout
  · rw [elements_eq hX, pairwise_range_map] at hasc
    have hqueueAsc := (hsortedRow row).1
    rw [elements_eq hY, pairwise_range_map, hsortedLen] at hqueueAsc
    have hkeptEq : elements (2 ^ b) row kept = (List.range (list.length * 2 ^ b)).map
        (lower (list.length * 2 ^ b) (queue.length * 2 ^ b) (X row) (Y row)) := by
      rw [elements_eq hkeptHolds, hkeptLen]
    refine ⟨(hrow row).2 (lower_isArc hasc hqueueAsc),
      dropped (list.length * 2 ^ b) (queue.length * 2 ^ b) (X row) (Y row), ?_, ?_⟩
    · have hsortedEq := elements_eq hY row
      rw [hsortedLen] at hsortedEq
      refine (((hrow row).1.trans (List.Perm.of_eq hkeptEq)).append_right _).trans ?_
      refine (lower_perm _ _ _ _).trans ?_
      rw [elements_eq hX, ← hsortedEq]
      exact (hsortedRow row).2.append_left _
    · intro u hu v hv
      rw [(hrow row).1.mem_iff, hkeptEq, List.mem_map] at hu
      obtain ⟨p, hp, rfl⟩ := hu
      exact lower_le_dropped hasc hqueueAsc (List.mem_range.mp hp) hv

/-- Two ascending runs as long, merged. -/
theorem merged_halves (hb : 0 < b) {as bs : List (Pair σ ι)} (has : as.length = 2 ^ n)
    (hlen : bs.length = as.length) :
    ∃ lo hi, merged (2 ^ b) as bs = some (lo, hi) ∧ lo.length = as.length ∧
      hi.length = as.length ∧
      ∀ row, (elements (2 ^ b) row as).Pairwise (· ≤ ·) →
        (elements (2 ^ b) row bs).Pairwise (· ≤ ·) →
        (elements (2 ^ b) row lo).Pairwise (· ≤ ·) ∧
          (elements (2 ^ b) row hi).Pairwise (· ≤ ·) ∧
          (elements (2 ^ b) row lo ++ elements (2 ^ b) row hi).Perm
            (elements (2 ^ b) row as ++ elements (2 ^ b) row bs) ∧
          ∀ u ∈ elements (2 ^ b) row lo, ∀ v ∈ elements (2 ^ b) row hi, u ≤ v := by
  obtain ⟨X, hX⟩ := exists_holds (w := 2 ^ b) (ne_nil_of_length has)
  obtain ⟨Y, hY⟩ := exists_holds (w := 2 ^ b) (ne_nil_of_length (hlen.trans has))
  obtain ⟨pairs, hpairs, hpairsLen, hlower, hupper⟩ := orderReversed_mapM hb hlen hX hY
  have hfst : (pairs.map Prod.fst).length = as.length := by rw [List.length_map, hpairsLen]
  have hsnd : (pairs.map Prod.snd).length = as.length := by rw [List.length_map, hpairsLen]
  obtain ⟨lo, hlo, hloLen, hloRow⟩ := network_merge_elements (hfst.trans has) hlower
  obtain ⟨hi, hhi, hhiLen, hhiRow⟩ := network_merge_elements (hsnd.trans has) hupper
  rw [hfst] at hlo hloLen hloRow
  rw [hsnd] at hhi hhiLen hhiRow
  refine ⟨lo, hi, ?_, hloLen, hhiLen, fun row hasc hbsc => ?_⟩
  · rw [merged, hpairs]
    simp only [Option.bind_eq_bind, Option.bind_some, hlo, hhi]
  · rw [elements_eq hX, pairwise_range_map] at hasc
    rw [elements_eq hY, pairwise_range_map, hlen] at hbsc
    have hloEq := elements_eq hlower row
    have hhiEq := elements_eq hupper row
    rw [hfst] at hloEq
    rw [hsnd] at hhiEq
    -- what the earlier of the pairs leave is the later of the pairs
    have hdropped : (elements (2 ^ b) row hi).Perm
        (dropped (as.length * 2 ^ b) (as.length * 2 ^ b) (X row) (Y row)) := by
      refine ((hhiRow row).1.trans (List.Perm.of_eq hhiEq)).trans ?_
      rw [dropped, Nat.min_self, Nat.sub_self, List.range'_zero, List.map_nil, List.append_nil]
      refine (map_range_reverse _ _).symm.trans (List.Perm.of_eq ?_)
      refine List.map_congr_left fun i hi => ?_
      rw [List.mem_range] at hi
      rw [upper, show as.length * 2 ^ b - 1 - (as.length * 2 ^ b - 1 - i) = i by omega]
    have hkept := (hloRow row).1.trans (List.Perm.of_eq hloEq)
    refine ⟨(hloRow row).2 (lower_isArc hasc hbsc), (hhiRow row).2 (upper_isArc hasc hbsc rfl),
      ?_, ?_⟩
    · refine (hkept.append hdropped).trans ((lower_perm _ _ _ _).trans ?_)
      rw [elements_eq hX, elements_eq hY, hlen]
    · intro u hu v hv
      rw [hkept.mem_iff, List.mem_map] at hu
      obtain ⟨p, hp, rfl⟩ := hu
      exact lower_le_dropped hasc hbsc (List.mem_range.mp hp) (hdropped.mem_iff.mp hv)

end Rows

/-- The networks sort and merge every row of tiles of a power of two; the merges reverse tiles,
    which takes more than one column. -/
theorem bitonic_networks {w : ℕ} (hw : isPowerOfTwo w = true) :
    (∀ seq : List (Pair σ ι), isPowerOfTwo seq.length = true →
      ∃ out, network w seq (doubling (seq.length * w)) = some out ∧
        ∀ row, (elements w row out).Pairwise (· ≤ ·) ∧
          (elements w row out).Perm (elements w row seq)) ∧
    (∀ seq : List (Pair σ ι), isPowerOfTwo seq.length = true →
      ∃ out, network w seq [seq.length * w] = some out ∧
        ∀ row, (elements w row out).Perm (elements w row seq) ∧
          (IsBitonic (elements w row seq) → (elements w row out).Pairwise (· ≤ ·))) ∧
    (1 < w → ∀ list queue : List (Pair σ ι), isPowerOfTwo list.length = true →
      isPowerOfTwo queue.length = true →
      ∃ out, queuedInto w list queue = some out ∧ out.length = list.length ∧
        ∀ row, (elements w row list).Pairwise (· ≤ ·) →
          (elements w row out).Pairwise (· ≤ ·) ∧
            ∃ rest, (elements w row out ++ rest).Perm
                (elements w row list ++ elements w row queue) ∧
              ∀ u ∈ elements w row out, ∀ v ∈ rest, u ≤ v) ∧
    (1 < w → ∀ a b : List (Pair σ ι), isPowerOfTwo a.length = true → b.length = a.length →
      ∃ lo hi, merged w a b = some (lo, hi) ∧ lo.length = a.length ∧ hi.length = a.length ∧
        ∀ row, (elements w row a).Pairwise (· ≤ ·) → (elements w row b).Pairwise (· ≤ ·) →
          (elements w row lo).Pairwise (· ≤ ·) ∧ (elements w row hi).Pairwise (· ≤ ·) ∧
            (elements w row lo ++ elements w row hi).Perm
              (elements w row a ++ elements w row b) ∧
            ∀ u ∈ elements w row lo, ∀ v ∈ elements w row hi, u ≤ v) := by
  obtain ⟨b, rfl⟩ := eq_two_pow_of_isPowerOfTwo hw
  have hpos : 1 < 2 ^ b → 0 < b := by
    intro h
    refine Nat.pos_of_ne_zero fun h0 => ?_
    rw [h0] at h
    exact lt_irrefl _ h
  refine ⟨fun seq hseq => ?_, fun seq hseq => ?_, fun h1 list queue hlist hqueue => ?_,
    fun h1 as bs has hlen => ?_⟩
  · obtain ⟨n, hn⟩ := eq_two_pow_of_isPowerOfTwo hseq
    obtain ⟨out, hout, -, hrow⟩ := network_sorts (b := b) hn
    exact ⟨out, hout, hrow⟩
  · obtain ⟨n, hn⟩ := eq_two_pow_of_isPowerOfTwo hseq
    exact network_merges hn
  · obtain ⟨n, hn⟩ := eq_two_pow_of_isPowerOfTwo hlist
    obtain ⟨k, hk⟩ := eq_two_pow_of_isPowerOfTwo hqueue
    exact queuedInto_least (hpos h1) hn hk
  · obtain ⟨n, hn⟩ := eq_two_pow_of_isPowerOfTwo has
    exact merged_halves (hpos h1) hn hlen

/-- A list of two scores and a queue of two. -/
theorem bitonic_networks_two :
    ∃ out, queuedInto 2 [(⟨fun _ col => col, fun _ col => col⟩ : Pair ℕ ℕ)]
        [⟨fun _ col => 5 - col, fun _ col => col⟩] = some out ∧
      (elements 2 0 out).Pairwise (· ≤ ·) := by
  obtain ⟨-, -, hqueued, -⟩ := bitonic_networks (σ := ℕ) (ι := ℕ) (w := 2) rfl
  obtain ⟨out, hout, -, hrow⟩ := hqueued (by decide)
    [⟨fun _ col => col, fun _ col => col⟩] [⟨fun _ col => 5 - col, fun _ col => col⟩] rfl rfl
  exact ⟨out, hout, (hrow 0 (by decide)).1⟩

/-- Tiles of one column cannot be reversed. -/
theorem merges_fail_of_one_column :
    isPowerOfTwo 1 = true ∧
      (elements 1 0 [(⟨fun _ _ => 1, fun _ _ => 0⟩ : Pair ℕ ℕ)]).Pairwise (· ≤ ·) ∧
      queuedInto 1 [(⟨fun _ _ => 1, fun _ _ => 0⟩ : Pair ℕ ℕ)] [⟨fun _ _ => 0, fun _ _ => 1⟩] =
        none ∧
      merged 1 [(⟨fun _ _ => 1, fun _ _ => 0⟩ : Pair ℕ ℕ)] [⟨fun _ _ => 0, fun _ _ => 1⟩] =
        none := by
  exact ⟨rfl, by decide, rfl, rfl⟩

end Svod.Tk.Nearest
