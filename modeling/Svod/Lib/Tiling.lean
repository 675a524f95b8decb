/-
  Svod.Lib.Tiling

  Tilings of an integer interval by consecutive segments, each carrying a tag.

  `Tiles lo hi L` says that the segments of `L`, in order, are non-empty and
  cover `[lo, hi)` without gap or overlap.  The lemmas say how a tiling is cut
  at an append, where a member lies, and that two members of one tiling are the
  same or occupy disjoint ranges.  `links` reads a tiling as a doubly linked
  list keyed by start offset: the entry of a segment holds the starts of its two
  neighbours.
-/

import Mathlib.Data.List.Chain

namespace Svod.Lib.Tiling

/-- A tagged segment `[start, start + len)`. -/
structure Seg (τ : Type*) where
  start : Nat
  len : Nat
  tag : τ
deriving DecidableEq, Repr

variable {τ : Type*}
variable {a hi lo : Nat} {n p : Option Nat}

/-- First offset past the segment. -/
def Seg.stop (b : Seg τ) : Nat := b.start + b.len

/-- `L` covers `[lo, hi)` by consecutive non-empty segments. -/
def Tiles (lo hi : Nat) : List (Seg τ) → Prop
  | [] => lo = hi
  | b :: rest => b.start = lo ∧ 0 < b.len ∧ Tiles b.stop hi rest

@[simp] theorem tiles_nil : Tiles (τ := τ) lo hi [] ↔ lo = hi := Iff.rfl

variable {b : Seg τ}

@[simp] theorem tiles_cons {rest : List (Seg τ)} :
    Tiles lo hi (b :: rest) ↔ b.start = lo ∧ 0 < b.len ∧ Tiles b.stop hi rest := Iff.rfl

/-- A tiling is cut at an append, at some intermediate offset. -/
theorem tiles_append {A B : List (Seg τ)} :
    Tiles lo hi (A ++ B) ↔ ∃ mid, Tiles lo mid A ∧ Tiles mid hi B := by
  induction A generalizing lo with
  | nil => simp
  | cons b A ih =>
    simp only [List.cons_append, tiles_cons, ih]
    constructor
    · rintro ⟨hb, hpos, mid, hA, hB⟩
      exact ⟨mid, ⟨hb, hpos, hA⟩, hB⟩
    · rintro ⟨mid, ⟨hb, hpos, hA⟩, hB⟩
      exact ⟨hb, hpos, mid, hA, hB⟩

theorem Tiles.le {lo hi : Nat} {L : List (Seg τ)} (h : Tiles lo hi L) : lo ≤ hi := by
  induction L generalizing lo with
  | nil => exact Nat.le_of_eq h
  | cons b L ih =>
    obtain ⟨hb, -, hL⟩ := h
    have := ih hL
    simp only [Seg.stop] at this
    omega

variable {L : List (Seg τ)}

/-- No tiling has more segments than offsets. -/
theorem Tiles.length_le (h : Tiles lo hi L) : lo + L.length ≤ hi := by
  induction L generalizing lo with
  | nil => exact Nat.le_of_eq h
  | cons b L ih =>
    obtain ⟨rfl, hpos, hL⟩ := h
    have := ih hL
    simp only [Seg.stop] at this
    simp only [List.length_cons]
    omega

/-- A member of a tiling is non-empty and lies inside the tiled interval. -/
theorem Tiles.mem_bounds (h : Tiles lo hi L) (hb : b ∈ L) :
    lo ≤ b.start ∧ 0 < b.len ∧ b.stop ≤ hi := by
  induction L generalizing lo with
  | nil => cases hb
  | cons c L ih =>
    obtain ⟨hc, hpos, hL⟩ := h
    cases hb with
    | head => exact ⟨hc.ge, hpos, hL.le⟩
    | tail _ hb =>
      have := ih hL hb
      simp only [Seg.stop] at this ⊢
      omega

/-- Two segments of one tiling are the same or disjoint. -/
theorem Tiles.eq_or_disjoint (h : Tiles lo hi L) {b c : Seg τ} (hb : b ∈ L) (hc : c ∈ L) :
    b = c ∨ b.stop ≤ c.start ∨ c.stop ≤ b.start := by
  induction L generalizing lo with
  | nil => cases hb
  | cons d L ih =>
    obtain ⟨-, -, hL⟩ := h
    cases hb with
    | head =>
      cases hc with
      | head => exact .inl rfl
      | tail _ hc => exact .inr (.inl (hL.mem_bounds hc).1)
    | tail _ hb =>
      cases hc with
      | head => exact .inr (.inr (hL.mem_bounds hb).1)
      | tail _ hc => exact ih hL hb hc

/-- The start of a segment determines it inside a tiling. -/
theorem Tiles.start_inj (h : Tiles lo hi L) {b c : Seg τ} (hb : b ∈ L) (hc : c ∈ L)
    (heq : b.start = c.start) : b = c := by
  have hb' := (h.mem_bounds hb).2.1
  have hc' := (h.mem_bounds hc).2.1
  rcases h.eq_or_disjoint hb hc with rfl | hd | hd
  · rfl
  all_goals
    simp only [Seg.stop] at hd
    omega

/-- Every offset of the range lies in a segment. -/
theorem Tiles.exists_mem (h : Tiles lo hi L) (hlo : lo ≤ a) (hhi : a < hi) :
    ∃ b ∈ L, b.start ≤ a ∧ a < b.stop := by
  induction L generalizing lo with
  | nil =>
    have heq : lo = hi := h
    omega
  | cons b L ih =>
    obtain ⟨hb, -, hL⟩ := h
    rcases Nat.lt_or_ge a b.stop with hlt | hge
    · exact ⟨b, List.mem_cons_self, by omega, hlt⟩
    · obtain ⟨c, hc, hin⟩ := ih hL hge
      exact ⟨c, List.mem_cons_of_mem b hc, hin⟩

/-- A tiling around one of its segments. -/
theorem tiles_middle {A C : List (Seg τ)} :
    Tiles lo hi (A ++ b :: C) ↔ Tiles lo b.start A ∧ 0 < b.len ∧ Tiles b.stop hi C := by
  rw [tiles_append]
  constructor
  · rintro ⟨mid, hA, rfl, hpos, hC⟩
    exact ⟨hA, hpos, hC⟩
  · rintro ⟨hA, hpos, hC⟩
    exact ⟨b.start, hA, rfl, hpos, hC⟩

/-! ## The linked-list view -/

/-- The entry of a segment in the linked view: its own length and tag, and the
    starts of the segments right after and right before it. -/
structure Link (τ : Type*) where
  len : Nat
  next : Option Nat
  prev : Option Nat
  tag : τ
deriving DecidableEq, Repr

/-- Start of the first segment, or `n` when there is none. -/
def headStart (L : List (Seg τ)) (n : Option Nat) : Option Nat :=
  match L with
  | [] => n
  | b :: _ => some b.start

/-- Start of the last segment, or `p` when there is none. -/
def lastStart (p : Option Nat) (L : List (Seg τ)) : Option Nat :=
  match L with
  | [] => p
  | b :: rest => lastStart (some b.start) rest

@[simp] theorem headStart_nil (n : Option Nat) : headStart ([] : List (Seg τ)) n = n := rfl
@[simp] theorem headStart_cons (b : Seg τ) (L : List (Seg τ)) (n : Option Nat) :
    headStart (b :: L) n = some b.start := rfl
@[simp] theorem lastStart_nil (p : Option Nat) : lastStart p ([] : List (Seg τ)) = p := rfl
@[simp] theorem lastStart_cons (p : Option Nat) (b : Seg τ) (L : List (Seg τ)) :
    lastStart p (b :: L) = lastStart (some b.start) L := rfl

@[simp] theorem lastStart_append (p : Option Nat) (A B : List (Seg τ)) :
    lastStart p (A ++ B) = lastStart (lastStart p A) B := by
  induction A generalizing p with
  | nil => rfl
  | cons b A ih => simp [ih]

/-- The doubly linked list of `L` between the outer neighbours `p` and `n`,
    as a partial map from start offsets. -/
def links (p n : Option Nat) : List (Seg τ) → Nat → Option (Link τ)
  | [], _ => none
  | b :: rest, a =>
    if b.start = a then some ⟨b.len, headStart rest n, p, b.tag⟩
    else links (some b.start) n rest a

@[simp] theorem links_nil (p n : Option Nat) (a : Nat) :
    links p n ([] : List (Seg τ)) a = none := rfl

theorem links_cons (p n : Option Nat) (b : Seg τ) (L : List (Seg τ)) (a : Nat) :
    links p n (b :: L) a = if b.start = a then some ⟨b.len, headStart L n, p, b.tag⟩
      else links (some b.start) n L a := rfl

@[simp] theorem links_cons_self (p n : Option Nat) (b : Seg τ) (L : List (Seg τ)) :
    links p n (b :: L) b.start = some ⟨b.len, headStart L n, p, b.tag⟩ := by
  simp [links]

theorem links_cons_ne (h : b.start ≠ a) : links p n (b :: L) a = links (some b.start) n L a := by
  simp [links, h]

/-- Offsets that start no segment have no entry. -/
theorem links_eq_none (h : ∀ b ∈ L, b.start ≠ a) : links p n L a = none := by
  induction L generalizing p with
  | nil => rfl
  | cons b L ih =>
    rw [links_cons_ne (h b List.mem_cons_self)]
    exact ih fun c hc => h c (List.mem_cons_of_mem b hc)

/-- Reading the linked view across an append. -/
theorem links_append (p n : Option Nat) (A B : List (Seg τ)) (a : Nat) :
    links p n (A ++ B) a =
      (links p (headStart B n) A a).or (links (lastStart p A) n B a) := by
  induction A generalizing p with
  | nil => simp
  | cons b A ih =>
    have hhead : headStart (A ++ B) n = headStart A (headStart B n) := by
      cases A <;> rfl
    by_cases h : b.start = a
    · simp [links, h, hhead]
    · simp [links, h, ih]

/-- Offsets past a tiling have no entry in it. -/
theorem Tiles.links_eq_none_of_ge (h : Tiles lo hi L) (ha : hi ≤ a) : links p n L a = none := by
  apply links_eq_none
  intro b hb heq
  have := h.mem_bounds hb
  simp only [Seg.stop] at this
  omega

/-- Offsets before a tiling have no entry in it. -/
theorem Tiles.links_eq_none_of_lt (h : Tiles lo hi L) (ha : a < lo) : links p n L a = none := by
  apply links_eq_none
  intro b hb heq
  have := h.mem_bounds hb
  omega

/-- The entry of a segment in the middle of a tiling. -/
theorem links_middle {A C : List (Seg τ)} (h : Tiles lo hi (A ++ b :: C)) :
    links p n (A ++ b :: C) b.start = some ⟨b.len, headStart C n, lastStart p A, b.tag⟩ := by
  have hnone : links p (headStart (b :: C) n) A b.start = none :=
    (tiles_middle.mp h).1.links_eq_none_of_ge le_rfl
  rw [links_append, hnone, links_cons_self, Option.none_or]

/-- Every entry of the linked view belongs to a segment. -/
theorem exists_of_links {m : Link τ} (h : links p n L a = some m) :
    ∃ A b C, L = A ++ b :: C ∧ b.start = a ∧ b.len = m.len ∧ b.tag = m.tag := by
  induction L generalizing p with
  | nil => cases h
  | cons b L ih =>
    by_cases hb : b.start = a
    · simp only [links, hb, if_true, Option.some.injEq] at h
      exact ⟨[], b, L, rfl, hb, by rw [← h], by rw [← h]⟩
    · rw [links_cons_ne hb] at h
      obtain ⟨A, c, C, rfl, hc⟩ := ih h
      exact ⟨b :: A, c, C, rfl, hc⟩

end Svod.Lib.Tiling
