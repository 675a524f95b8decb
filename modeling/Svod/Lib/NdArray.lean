/-
  Svod.Lib.NdArray

  Arrays of any rank and their movement operations.

  An array is a shape and an element for each coordinate list.  Only the elements
  inside the shape count: two arrays of one shape that agree there are the same
  array.  `ravel` gives the row-major position of coordinates and `unravel` the
  coordinates at a position.  A reshape keeps positions, so reading it comes down
  to naming source coordinates at the same position; `SamePosition` is that
  relation, and it is built up one group of axes at a time.
-/

import Mathlib.Algebra.BigOperators.Group.List.Basic
import Mathlib.Data.List.GetD
import Mathlib.Data.List.Nodup
import Mathlib.Tactic.Ring

namespace Svod.Lib

variable {c shape : List ℕ}

/-! ## Coordinates and positions -/

/-- Coordinates `c` lie inside the shape. -/
abbrev InBounds (c shape : List ℕ) : Prop := List.Forall₂ (· < ·) c shape

/-- The row-major position of coordinates. -/
def ravel : List ℕ → List ℕ → ℕ
  | _ :: shape, x :: c => x * shape.prod + ravel shape c
  | _, _ => 0

/-- The coordinates at a row-major position. -/
def unravel : List ℕ → ℕ → List ℕ
  | [], _ => []
  | _ :: shape, n => n / shape.prod :: unravel shape (n % shape.prod)

theorem InBounds.append {c₁ c₂ s₁ s₂ : List ℕ} (h₁ : InBounds c₁ s₁) (h₂ : InBounds c₂ s₂) :
    InBounds (c₁ ++ c₂) (s₁ ++ s₂) :=
  List.rel_append h₁ h₂

/-- Coordinates inside a concatenated shape split at the first shape's rank. -/
theorem InBounds.split {c s₁ s₂ : List ℕ} (h : InBounds c (s₁ ++ s₂)) :
    ∃ c₁ c₂, c = c₁ ++ c₂ ∧ InBounds c₁ s₁ ∧ InBounds c₂ s₂ :=
  ⟨c.take s₁.length, c.drop s₁.length, (List.take_append_drop _ _).symm,
    List.forall₂_take_append c s₁ s₂ h, List.forall₂_drop_append c s₁ s₂ h⟩

/-- Coordinates given in two parts, the first of the first shape's rank. -/
theorem InBounds.of_append {c₁ c₂ s₁ s₂ : List ℕ} (hlen : c₁.length = s₁.length)
    (h : InBounds (c₁ ++ c₂) (s₁ ++ s₂)) : InBounds c₁ s₁ ∧ InBounds c₂ s₂ := by
  have h₁ := List.forall₂_take s₁.length h
  have h₂ := List.forall₂_drop s₁.length h
  rw [List.take_left' hlen, List.take_left' rfl] at h₁
  rw [List.drop_left' hlen, List.drop_left' rfl] at h₂
  exact ⟨h₁, h₂⟩

/-- Coordinates of a repeated shape, taken modulo the extents, lie inside the shape. -/
theorem InBounds.mod {c repeats shape : List ℕ} (hlen : repeats.length = shape.length)
    (h : InBounds c (List.zipWith (· * ·) repeats shape)) :
    InBounds (List.zipWith (· % ·) c shape) shape := by
  induction shape generalizing repeats c with
  | nil => simp
  | cons s shape ih =>
    obtain _ | ⟨r, repeats⟩ := repeats
    · simp at hlen
    obtain _ | ⟨x, c⟩ := c
    · simp at h
    obtain ⟨hx, hc⟩ := List.forall₂_cons.mp h
    have hs : 0 < s := Nat.pos_of_ne_zero fun h0 => by simp [h0] at hx
    exact .cons (Nat.mod_lt _ hs) (ih (by simpa using hlen) hc)

/-- Coordinates inside the shape are their own remainders. -/
theorem InBounds.mod_self (h : InBounds c shape) : List.zipWith (· % ·) c shape = c := by
  induction h with
  | nil => rfl
  | cons hx _ ih => simp [Nat.mod_eq_of_lt hx, ih]

@[simp] theorem unravel_length (shape : List ℕ) (n : ℕ) :
    (unravel shape n).length = shape.length := by
  induction shape generalizing n with
  | nil => rfl
  | cons s shape ih => simp [unravel, ih]

theorem ravel_lt (h : InBounds c shape) : ravel shape c < shape.prod := by
  induction h with
  | nil => simp [ravel]
  | @cons x s c shape hx _ ih =>
    calc x * shape.prod + ravel shape c < x * shape.prod + shape.prod := by omega
      _ = (x + 1) * shape.prod := by ring
      _ ≤ s * shape.prod := Nat.mul_le_mul_right _ hx
      _ = (s :: shape).prod := (List.prod_cons).symm

theorem unravel_ravel (h : InBounds c shape) : unravel shape (ravel shape c) = c := by
  induction h with
  | nil => rfl
  | @cons x s c shape _ hc ih =>
    have hlt := ravel_lt hc
    have hpos : 0 < shape.prod := by omega
    simp only [ravel, unravel]
    rw [Nat.add_comm, Nat.add_mul_div_right _ _ hpos, Nat.div_eq_of_lt hlt, Nat.zero_add,
      Nat.add_mul_mod_self_right, Nat.mod_eq_of_lt hlt, ih]

theorem unravel_inBounds {n : ℕ} (h : n < shape.prod) : InBounds (unravel shape n) shape := by
  induction shape generalizing n with
  | nil => exact List.Forall₂.nil
  | cons s shape ih =>
    rw [List.prod_cons] at h
    have hpos : 0 < shape.prod := Nat.pos_of_ne_zero fun h0 => by simp [h0] at h
    exact List.Forall₂.cons (Nat.div_lt_of_lt_mul (by rwa [Nat.mul_comm] at h))
      (ih (Nat.mod_lt _ hpos))

theorem ravel_unravel {n : ℕ} (h : n < shape.prod) : ravel shape (unravel shape n) = n := by
  induction shape generalizing n with
  | nil => simpa [ravel, eq_comm] using h
  | cons s shape ih =>
    rw [List.prod_cons] at h
    have hpos : 0 < shape.prod := Nat.pos_of_ne_zero fun h0 => by simp [h0] at h
    rw [unravel, ravel, ih (Nat.mod_lt _ hpos), Nat.mul_comm]
    exact Nat.div_add_mod n shape.prod

/-- Positions in a concatenated shape: the first group counts whole blocks of the second. -/
theorem ravel_append {c₁ s₁ : List ℕ} (h : c₁.length = s₁.length) (s₂ c₂ : List ℕ) :
    ravel (s₁ ++ s₂) (c₁ ++ c₂) = ravel s₁ c₁ * s₂.prod + ravel s₂ c₂ := by
  induction s₁ generalizing c₁ with
  | nil =>
    obtain rfl := List.length_eq_zero_iff.mp h
    simp [ravel]
  | cons s s₁ ih =>
    obtain _ | ⟨x, c₁⟩ := c₁
    · simp at h
    · simp only [List.cons_append, ravel, List.prod_append, ih (by simpa using h)]
      ring

/-- The coordinates of a concatenated shape: whole blocks of the second group, and the rest. -/
theorem unravel_append {a b : List ℕ} {n : ℕ} (h : n < (a ++ b).prod) :
    unravel (a ++ b) n = unravel a (n / b.prod) ++ unravel b (n % b.prod) := by
  rw [List.prod_append] at h
  have hpos : 0 < b.prod := Nat.pos_of_ne_zero fun h0 => by simp [h0] at h
  have ha : n / b.prod < a.prod := Nat.div_lt_of_lt_mul (by rwa [Nat.mul_comm] at h)
  have hb : n % b.prod < b.prod := Nat.mod_lt _ hpos
  have hraveled : ravel (a ++ b) (unravel a (n / b.prod) ++ unravel b (n % b.prod)) = n := by
    rw [ravel_append (unravel_length _ _), ravel_unravel ha, ravel_unravel hb]
    exact Nat.div_add_mod' n b.prod
  conv_lhs => rw [← hraveled]
  exact unravel_ravel ((unravel_inBounds ha).append (unravel_inBounds hb))

/-- The in-bounds coordinates of a shape, in row-major order. -/
def coords (shape : List ℕ) : List (List ℕ) := (List.range shape.prod).map (unravel shape)

theorem mem_coords : c ∈ coords shape ↔ InBounds c shape := by
  constructor
  · intro h
    obtain ⟨n, hn, rfl⟩ := List.mem_map.mp h
    exact unravel_inBounds (List.mem_range.mp hn)
  · intro h
    exact List.mem_map.mpr ⟨ravel shape c, List.mem_range.mpr (ravel_lt h), unravel_ravel h⟩

theorem coords_nodup (shape : List ℕ) : (coords shape).Nodup := by
  refine (List.nodup_map_iff_inj_on List.nodup_range).mpr fun a ha b hb hab => ?_
  rw [← ravel_unravel (List.mem_range.mp ha), hab, ravel_unravel (List.mem_range.mp hb)]

/-! ## Coordinates at the same position of two shapes -/

/-- Coordinates `c` of `shape` and `c'` of `shape'` name the same element of a reshape. -/
structure SamePosition (shape c shape' c' : List ℕ) : Prop where
  inBounds : InBounds c shape
  inBounds' : InBounds c' shape'
  prod_eq : shape.prod = shape'.prod
  ravel_eq : ravel shape c = ravel shape' c'

namespace SamePosition

theorem refl (h : InBounds c shape) : SamePosition shape c shape c :=
  ⟨h, h, rfl, rfl⟩

theorem nil : SamePosition [] [] [] [] := refl List.Forall₂.nil

theorem symm {s c s' c' : List ℕ} (h : SamePosition s c s' c') : SamePosition s' c' s c :=
  ⟨h.inBounds', h.inBounds, h.prod_eq.symm, h.ravel_eq.symm⟩

theorem trans {s c s' c' s'' c'' : List ℕ} (h : SamePosition s c s' c')
    (h' : SamePosition s' c' s'' c'') : SamePosition s c s'' c'' :=
  ⟨h.inBounds, h'.inBounds', h.prod_eq.trans h'.prod_eq, h.ravel_eq.trans h'.ravel_eq⟩

/-- A group of axes flattened into one. -/
theorem flat {s c : List ℕ} (h : InBounds c s) : SamePosition s c [s.prod] [ravel s c] where
  inBounds := h
  inBounds' := .cons (ravel_lt h) .nil
  prod_eq := by simp
  ravel_eq := by simp [ravel]

/-- Groups of axes are regrouped independently of each other. -/
theorem append {s₁ c₁ s₁' c₁' s₂ c₂ s₂' c₂' : List ℕ} (h₁ : SamePosition s₁ c₁ s₁' c₁')
    (h₂ : SamePosition s₂ c₂ s₂' c₂') :
    SamePosition (s₁ ++ s₂) (c₁ ++ c₂) (s₁' ++ s₂') (c₁' ++ c₂') where
  inBounds := h₁.inBounds.append h₂.inBounds
  inBounds' := h₁.inBounds'.append h₂.inBounds'
  prod_eq := by rw [List.prod_append, List.prod_append, h₁.prod_eq, h₂.prod_eq]
  ravel_eq := by
    rw [ravel_append h₁.inBounds.length_eq, ravel_append h₁.inBounds'.length_eq, h₁.ravel_eq,
      h₂.prod_eq, h₂.ravel_eq]

/-- A reshape that treats every axis record in the same way. -/
theorem flatMap {ι : Type*} (xs : List ι) (s c s' c' : ι → List ℕ)
    (h : ∀ x ∈ xs, SamePosition (s x) (c x) (s' x) (c' x)) :
    SamePosition (xs.flatMap s) (xs.flatMap c) (xs.flatMap s') (xs.flatMap c') := by
  induction xs with
  | nil => exact nil
  | cons x xs ih =>
    simp only [List.flatMap_cons]
    exact (h x (by simp)).append (ih fun y hy => h y (by simp [hy]))

/-- The position a reshape reads: the source coordinates at the same position. -/
theorem unravel_eq {s c s' c' : List ℕ} (h : SamePosition s c s' c') :
    unravel s (ravel s' c') = c := by
  rw [← h.ravel_eq, unravel_ravel h.inBounds]

/-- Two axes merged into one. -/
theorem merge {a b x y : ℕ} (hx : x < a) (hy : y < b) :
    SamePosition [a, b] [x, y] [a * b] [x * b + y] where
  inBounds := .cons hx (.cons hy .nil)
  inBounds' := by
    have : x * b + y < a * b := by
      calc x * b + y < x * b + b := by omega
        _ = (x + 1) * b := by ring
        _ ≤ a * b := Nat.mul_le_mul_right _ hx
    exact .cons this .nil
  prod_eq := by simp
  ravel_eq := by simp [ravel]

/-- A unit axis holds no position. -/
theorem unit : SamePosition [1] [0] [] [] where
  inBounds := .cons Nat.zero_lt_one .nil
  inBounds' := .nil
  prod_eq := by simp
  ravel_eq := by simp [ravel]

theorem units (n : ℕ) : SamePosition (List.replicate n 1) (List.replicate n 0) [] [] := by
  induction n with
  | zero => exact .nil
  | succ n ih => exact SamePosition.unit.append ih

end SamePosition

/-! ## Arrays -/

/-- A shape and an element for each coordinate list. -/
structure NdArray (α : Type*) where
  shape : List ℕ
  get : List ℕ → α

namespace NdArray

variable {α β γ : Type*}

/-- The array whose elements keep their positions in another shape. -/
def reshape (t : NdArray α) (shape : List ℕ) : NdArray α :=
  ⟨shape, fun c => t.get (unravel t.shape (ravel shape c))⟩

/-- The array whose axis `k` is the axis `axes[k]` of `t`. -/
def permute (t : NdArray α) (axes : List ℕ) : NdArray α :=
  ⟨axes.map (t.shape.getD · 0),
    fun c => t.get ((List.range t.shape.length).map fun d => c.getD (axes.idxOf d) 0)⟩

/-- The array whose unit axes repeat their element up to the new extents. -/
def expand (t : NdArray α) (shape : List ℕ) : NdArray α :=
  ⟨shape, fun c => t.get (List.zipWith (fun s x => if s = 1 then 0 else x) t.shape c)⟩

/-- The part of the array from the offsets on, of the given sizes. -/
def shrink (t : NdArray α) (offsets sizes : List ℕ) : NdArray α :=
  ⟨sizes, fun c => t.get (List.zipWith (· + ·) offsets c)⟩

/-- The array with zeros before and after each axis. -/
def pad [Zero α] (t : NdArray α) (padding : List (ℕ × ℕ)) : NdArray α :=
  ⟨List.zipWith (fun s p => s + p.1 + p.2) t.shape padding,
    fun c =>
      if List.Forall₂ (fun p x => p.1 ≤ x) padding c ∧
          InBounds (List.zipWith (fun p x => x - p.1) padding c) t.shape then
        t.get (List.zipWith (fun p x => x - p.1) padding c)
      else 0⟩

/-- The elementwise operation on two arrays of one shape. -/
def map₂ (f : α → β → γ) (a : NdArray α) (b : NdArray β) : NdArray γ :=
  ⟨a.shape, fun c => f (a.get c) (b.get c)⟩

/-- The array without its first `n` axes, folded over them. -/
def reduceLeading (op : α → α → α) (e : α) : ℕ → NdArray α → NdArray α
  | 0, t => t
  | n + 1, t =>
    ⟨t.shape.drop (n + 1), fun c =>
      ((List.range (t.shape.headD 0)).map fun x =>
        (reduceLeading op e n ⟨t.shape.tail, fun c => t.get (x :: c)⟩).get c).foldr op e⟩

theorem reduceLeading_shape (op : α → α → α) (e : α) (n : ℕ) (t : NdArray α) :
    (reduceLeading op e n t).shape = t.shape.drop n := by
  cases n with
  | zero => rfl
  | succ n => rfl

/-- Two arrays of one shape with the same elements inside it. -/
structure Agrees (a b : NdArray α) : Prop where
  shape_eq : a.shape = b.shape
  get_eq : ∀ c, InBounds c b.shape → a.get c = b.get c

theorem Agrees.refl (a : NdArray α) : a.Agrees a := ⟨rfl, fun _ _ => rfl⟩

theorem Agrees.trans {a b c : NdArray α} (h : a.Agrees b) (h' : b.Agrees c) : a.Agrees c :=
  ⟨h.shape_eq.trans h'.shape_eq, fun x hx =>
    (h.get_eq x (h'.shape_eq ▸ hx)).trans (h'.get_eq x hx)⟩

theorem reshape_get (t : NdArray α) {shape c c' : List ℕ}
    (h : SamePosition t.shape c shape c') : (t.reshape shape).get c' = t.get c :=
  congrArg t.get h.unravel_eq

/-- Reading a permuted array at permuted coordinates. -/
theorem permute_get (t : NdArray α) {axes c : List ℕ}
    (hperm : axes.Perm (List.range t.shape.length)) (hc : c.length = t.shape.length) :
    (t.permute axes).get (axes.map (c.getD · 0)) = t.get c := by
  have hmap : (List.range t.shape.length).map
      (fun d => (axes.map (c.getD · 0)).getD (axes.idxOf d) 0) = c := by
    refine List.ext_getElem (by simp [hc]) fun d h₁ h₂ => ?_
    have hmem : d ∈ axes := hperm.mem_iff.mpr (by simpa using h₁)
    have hidx : axes.idxOf d < axes.length := List.idxOf_lt_length_iff.mpr hmem
    rw [List.getElem_map, List.getElem_range, List.getD_eq_getElem _ _ (by simpa using hidx),
      List.getElem_map, List.getElem_idxOf, List.getD_eq_getElem _ _ h₂]
  exact congrArg t.get hmap

/-! ## Operations that change nothing -/

/-- The array itself, seen as an array with other element functions of its shape. -/
theorem agrees_of_get {a b : NdArray α} (hshape : a.shape = b.shape)
    (h : ∀ c, InBounds c a.shape → b.get c = a.get c) : a.Agrees b :=
  ⟨hshape, fun c hc => (h c (hshape ▸ hc)).symm⟩

theorem reshape_self (t : NdArray α) : t.Agrees (t.reshape t.shape) :=
  agrees_of_get rfl fun _ hc => t.reshape_get (.refl hc)

/-- In-bounds coordinates are `0` on the unit axes already. -/
theorem expandCoords_self (h : InBounds c shape) :
    List.zipWith (fun s x => if s = 1 then 0 else x) shape c = c := by
  induction h with
  | nil => rfl
  | @cons x s c shape hx _ ih =>
    have hhead : (if s = 1 then 0 else x) = x := by split <;> omega
    simp [hhead, ih]

theorem expand_self (t : NdArray α) : t.Agrees (t.expand t.shape) :=
  agrees_of_get rfl fun _ hc => congrArg t.get (expandCoords_self hc)

theorem permute_self (t : NdArray α) : t.Agrees (t.permute (List.range t.shape.length)) := by
  have hmap : ∀ l : List ℕ, (List.range l.length).map (l.getD · 0) = l := fun l =>
    List.ext_getElem (by simp) fun d h₁ h₂ => by
      rw [List.getElem_map, List.getElem_range, List.getD_eq_getElem _ _ h₂]
  refine agrees_of_get (hmap _).symm fun c hc => ?_
  have h := t.permute_get (List.Perm.refl (List.range t.shape.length)) hc.length_eq
  rwa [← hc.length_eq, hmap, hc.length_eq] at h

theorem pad_zero [Zero α] (t : NdArray α) {padding : List (ℕ × ℕ)}
    (hlen : padding.length = t.shape.length) (h : ∀ p ∈ padding, p = (0, 0)) :
    t.Agrees (t.pad padding) := by
  obtain rfl : padding = List.replicate t.shape.length (0, 0) :=
    List.eq_replicate_iff.mpr ⟨hlen, h⟩
  have hleft : ∀ c : List ℕ,
      List.zipWith (fun (p : ℕ × ℕ) x => x - p.1) (List.replicate c.length (0, 0)) c = c := by
    intro c
    induction c with
    | nil => rfl
    | cons x c ih => simpa [List.replicate_succ] using ih
  have hle : ∀ c : List ℕ,
      List.Forall₂ (fun (p : ℕ × ℕ) x => p.1 ≤ x) (List.replicate c.length (0, 0)) c := by
    intro c
    induction c with
    | nil => exact .nil
    | cons x c ih => exact .cons (Nat.zero_le _) ih
  have hshape : ∀ s : List ℕ,
      List.zipWith (fun s (p : ℕ × ℕ) => s + p.1 + p.2) s (List.replicate s.length (0, 0)) = s := by
    intro s
    induction s with
    | nil => rfl
    | cons x s ih => simpa [List.replicate_succ] using ih
  refine agrees_of_get (hshape _).symm fun c hc => ?_
  simp only [pad, ← hc.length_eq, hleft]
  exact if_pos ⟨hle c, hc⟩

/-- A shrink to the full extent. -/
theorem shrink_self (t : NdArray α) :
    t.Agrees (t.shrink (List.replicate t.shape.length 0) t.shape) := by
  refine agrees_of_get rfl fun c hc => congrArg t.get ?_
  rw [← hc.length_eq]
  clear hc
  induction c with
  | nil => rfl
  | cons x c ih => simpa [List.replicate_succ] using ih

end NdArray

end Svod.Lib
