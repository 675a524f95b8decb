/-
  Svod.Lib.IndexSpace

  The points of a list of independent axes.

  A point gives every axis an index; the points of a list of axes are those of an
  environment moved over the extents of the axes.  Order does not matter to the
  points as a multiset, and two axes are one axis of the product extent whose
  index is split by division with remainder.
-/

import Mathlib.Data.List.Dedup
import Mathlib.Data.List.Perm.Basic
import Mathlib.Data.Nat.ModEq

namespace Svod.Lib.IndexSpace

variable {κ β : Type*} [DecidableEq κ] {ext : κ → ℕ}

/-- An index for every axis. -/
abbrev Point (κ : Type*) := κ → ℕ

/-- The points of the axes, the first one outermost. -/
def points (ext : κ → ℕ) : List κ → Point κ → List (Point κ)
  | [], σ => [σ]
  | a :: as, σ => (List.range (ext a)).flatMap fun i => points ext as (Function.update σ a i)

/-- `f` reads the axes `S` only. -/
def Reads (f : Point κ → β) (S : List κ) : Prop :=
  ∀ σ σ', (∀ a ∈ S, σ a = σ' a) → f σ = f σ'

omit [DecidableEq κ] in
theorem Reads.mono {f : Point κ → β} {S T : List κ} (h : Reads f S) (hST : ∀ a ∈ S, a ∈ T) :
    Reads f T :=
  fun σ σ' hσ => h σ σ' fun a ha => hσ a (hST a ha)

omit [DecidableEq κ] in
/-- What is computed of two values reads the axes of both. -/
theorem Reads.map₂ {γ δ : Type*} {f : Point κ → β} {g : Point κ → γ} {S T : List κ}
    (op : β → γ → δ) (hf : Reads f S) (hg : Reads g T) :
    Reads (fun σ => op (f σ) (g σ)) (S ++ T) := by
  intro σ σ' h
  obtain ⟨hS, hT⟩ := List.forall_mem_append.mp h
  exact congrArg₂ op (hf σ σ' hS) (hg σ σ' hT)

/-! ## Order -/

theorem flatMap_comm_perm {α γ δ : Type*} (l : List α) (l' : List γ) (f : α → γ → List δ) :
    (l.flatMap fun x => l'.flatMap (f x)).Perm (l'.flatMap fun y => l.flatMap fun x => f x y) := by
  induction l with
  | nil => simp
  | cons x l ih =>
    simp only [List.flatMap_cons]
    refine (List.Perm.append_left _ ih).trans ?_
    exact List.flatMap_append_perm l' (f x) fun y => l.flatMap fun x => f x y

theorem points_perm {as bs : List κ} (h : as.Perm bs) (σ : Point κ) :
    (points ext as σ).Perm (points ext bs σ) := by
  induction h generalizing σ with
  | nil => exact .refl _
  | cons a _ ih => exact List.Perm.flatMap_left _ fun i _ => ih _
  | swap a b as =>
    by_cases hab : b = a
    · rw [hab]
    · refine (flatMap_comm_perm _ _ _).trans ?_
      simp only [points, Function.update_comm hab]
      exact .refl _
  | trans _ _ ih ih' => exact (ih σ).trans (ih' σ)

/-! ## What a function of the points reads -/

/-- Environments that agree on what is read and not moved give the same values. -/
theorem map_points_congr {f : Point κ → β} {S : List κ} (hf : Reads f S) {as : List κ}
    {σ σ' : Point κ} (h : ∀ a ∈ S, a ∉ as → σ a = σ' a) :
    (points ext as σ).map f = (points ext as σ').map f := by
  induction as generalizing σ σ' with
  | nil => simpa [points] using hf σ σ' fun a ha => h a ha (by simp)
  | cons b as ih =>
    simp only [points, List.map_flatMap]
    refine List.flatMap_congr fun i _ => ih fun a ha hna => ?_
    by_cases hab : a = b
    · rw [hab, Function.update_self, Function.update_self]
    · rw [Function.update_of_ne hab, Function.update_of_ne hab]
      exact h a ha (by simp [hab, hna])

/-! ## Merging two axes -/

/-- The index of `m`, split into those of `a` and `b`. -/
def split (a b m : κ) (s : ℕ) (σ : Point κ) : Point κ :=
  Function.update (Function.update σ a (σ m / s)) b (σ m % s)

theorem split_update {a b m c : κ} {s : ℕ} (ha : c ≠ a) (hb : c ≠ b) (hm : c ≠ m) (σ : Point κ)
    (i : ℕ) : split a b m s (Function.update σ c i) = Function.update (split a b m s σ) c i := by
  unfold split
  rw [Function.update_of_ne hm.symm, Function.update_comm ha, Function.update_comm hb]

/-- Axes other than the three commute with the splitting. -/
theorem map_split_points {a b m : κ} {s : ℕ} {as : List κ} (ha : a ∉ as) (hb : b ∉ as)
    (hm : m ∉ as) (σ : Point κ) :
    (points ext as σ).map (split a b m s) = points ext as (split a b m s σ) := by
  induction as generalizing σ with
  | nil => rfl
  | cons c as ih =>
    simp only [List.mem_cons, not_or] at ha hb hm
    simp only [points, List.map_flatMap]
    refine List.flatMap_congr fun i _ => ?_
    rw [ih ha.2 hb.2 hm.2, split_update (Ne.symm ha.1) (Ne.symm hb.1) (Ne.symm hm.1)]

/-- Counting to a product is counting twice. -/
theorem flatMap_range_mul (m n : ℕ) (f : ℕ → ℕ → List β) :
    ((List.range (m * n)).flatMap fun k => f (k / n) (k % n)) =
      (List.range m).flatMap fun i => (List.range n).flatMap (f i) := by
  induction m with
  | zero => simp
  | succ m ih =>
    rw [Nat.succ_mul, List.range_add, List.flatMap_append, ih, List.range_succ,
      List.flatMap_append, List.flatMap_singleton, List.flatMap_map]
    congr 1
    refine List.flatMap_congr fun j hj => ?_
    have hlt : j < n := List.mem_range.mp hj
    rw [Nat.add_comm, Nat.add_mul_div_right _ _ (Nat.zero_lt_of_lt hlt), Nat.div_eq_of_lt hlt,
      Nat.add_mul_mod_self_right, Nat.mod_eq_of_lt hlt, Nat.zero_add]

section Merge

variable {a b m : κ} {S as : List κ} {f : Point κ → β}

/-- The axes `a` and `b` as one axis `m` of the product extent. -/
theorem map_points_merge (hab : a ≠ b) (hm : m ∉ as)
    (hext : ext m = ext a * ext b) (hf : Reads f S) (hS : m ∉ S) (ha : a ∉ as) (hb : b ∉ as)
    (σ : Point κ) :
    (points ext (m :: as) σ).map (f ∘ split a b m (ext b)) =
      (points ext (a :: b :: as) (split a b m (ext b) σ)).map f := by
  -- at fixed indices of the two axes
  let g : ℕ → ℕ → List β := fun i j =>
    (points ext as (Function.update (Function.update σ a i) b j)).map f
  have hleft : (points ext (m :: as) σ).map (f ∘ split a b m (ext b)) =
      (List.range (ext a * ext b)).flatMap fun k => g (k / ext b) (k % ext b) := by
    rw [← List.map_map]
    simp only [points, List.map_flatMap, hext]
    refine List.flatMap_congr fun k _ => ?_
    rw [map_split_points ha hb hm]
    refine map_points_congr hf fun c hc _ => ?_
    have hcm : c ≠ m := fun h => hS (h ▸ hc)
    unfold split
    rw [Function.update_self]
    by_cases hcb : c = b
    · rw [hcb, Function.update_self, Function.update_self]
    · rw [Function.update_of_ne hcb, Function.update_of_ne hcb]
      by_cases hca : c = a
      · rw [hca, Function.update_self, Function.update_self]
      · rw [Function.update_of_ne hca, Function.update_of_ne hca, Function.update_of_ne hcm]
  have hright : (points ext (a :: b :: as) (split a b m (ext b) σ)).map f =
      (List.range (ext a)).flatMap fun i => (List.range (ext b)).flatMap (g i) := by
    simp only [points, List.map_flatMap]
    refine List.flatMap_congr fun i _ => List.flatMap_congr fun j _ => ?_
    have hcomm : Function.update (split a b m (ext b) σ) a i =
        Function.update (Function.update (Function.update σ a (σ m / ext b)) a i) b
          (σ m % ext b) := Function.update_comm hab.symm _ _ _
    rw [hcomm, Function.update_idem, Function.update_idem]
  rw [hleft, hright, flatMap_range_mul]

/-- An axis `b` as the remainder of a longer one: every value is still taken. -/
theorem mem_map_points_mod (hm : m ∉ as) (ha : a ∉ as) (hb : b ∉ as)
    (hext : ext m = ext a * ext b) (hpos : 0 < ext a) (hf : Reads f S) (hS : m ∉ S) (haS : a ∉ S)
    (σ : Point κ) (y : β) :
    y ∈ (points ext (m :: as) σ).map (f ∘ split a b m (ext b)) ↔
      y ∈ (points ext (b :: as) (split a b m (ext b) σ)).map f := by
  have hagree : ∀ i, (points ext as (split a b m (ext b) (Function.update σ m i))).map f =
      (points ext as (Function.update (split a b m (ext b) σ) b (i % ext b))).map f := by
    refine fun i => map_points_congr hf fun c hc _ => ?_
    have hcm : c ≠ m := fun h => hS (h ▸ hc)
    have hca : c ≠ a := fun h => haS (h ▸ hc)
    unfold split
    rw [Function.update_idem, Function.update_self]
    by_cases hcb : c = b
    · rw [hcb, Function.update_self, Function.update_self]
    · rw [Function.update_of_ne hcb, Function.update_of_ne hcb, Function.update_of_ne hca,
        Function.update_of_ne hca, Function.update_of_ne hcm]
  rw [← List.map_map]
  simp only [points, List.map_flatMap, List.mem_flatMap, List.mem_range, hext,
    map_split_points ha hb hm, hagree]
  constructor
  · rintro ⟨k, hk, hy⟩
    have hpos' : 0 < ext b := Nat.pos_of_ne_zero fun h0 => by simp [h0] at hk
    exact ⟨k % ext b, Nat.mod_lt _ hpos', hy⟩
  · rintro ⟨j, hj, hy⟩
    refine ⟨j, lt_of_lt_of_le hj (Nat.le_mul_of_pos_left _ hpos), ?_⟩
    rwa [Nat.mod_eq_of_lt hj]

/-- An axis `a` as the quotient of a longer one. -/
theorem mem_map_points_div (hm : m ∉ as) (ha : a ∉ as) (hb : b ∉ as)
    (hext : ext m = ext a * ext b) (hpos : 0 < ext b) (hf : Reads f S) (hS : m ∉ S) (hbS : b ∉ S)
    (σ : Point κ) (y : β) :
    y ∈ (points ext (m :: as) σ).map (f ∘ split a b m (ext b)) ↔
      y ∈ (points ext (a :: as) (split a b m (ext b) σ)).map f := by
  have hagree : ∀ i, (points ext as (split a b m (ext b) (Function.update σ m i))).map f =
      (points ext as (Function.update (split a b m (ext b) σ) a (i / ext b))).map f := by
    refine fun i => map_points_congr hf fun c hc _ => ?_
    have hcm : c ≠ m := fun h => hS (h ▸ hc)
    have hcb : c ≠ b := fun h => hbS (h ▸ hc)
    unfold split
    rw [Function.update_self, Function.update_of_ne hcb]
    by_cases hca : c = a
    · rw [hca, Function.update_self, Function.update_self]
    · rw [Function.update_of_ne hca, Function.update_of_ne hca, Function.update_of_ne hcb,
        Function.update_of_ne hca, Function.update_of_ne hcm]
  rw [← List.map_map]
  simp only [points, List.map_flatMap, List.mem_flatMap, List.mem_range, hext,
    map_split_points ha hb hm, hagree]
  constructor
  · rintro ⟨k, hk, hy⟩
    exact ⟨k / ext b, Nat.div_lt_of_lt_mul (by rwa [Nat.mul_comm]), hy⟩
  · rintro ⟨i, hi, hy⟩
    refine ⟨i * ext b, Nat.mul_lt_mul_of_pos_right hi hpos, ?_⟩
    rwa [Nat.mul_div_cancel _ hpos]

end Merge

/-! ## Axes regrouped into two -/

section Regroup

variable {parts : κ → Option (κ × κ)} {axes : List κ} {f : Point κ → β}

/-- The axes in place of one. -/
def expand (parts : κ → Option (κ × κ)) (a : κ) : List κ :=
  match parts a with
  | some (o, n) => [o, n]
  | none => [a]

/-- The indices of the axes, from those of their parts: the second part counts fastest. -/
def join (ext : κ → ℕ) (parts : κ → Option (κ × κ)) (σ : Point κ) : Point κ := fun a =>
  match parts a with
  | some (o, n) => σ o * ext n + σ n
  | none => σ a

/-- Some of the axes have two parts each: they make up the extent, and are new and distinct. -/
structure Regroup (ext : κ → ℕ) (parts : κ → Option (κ × κ)) (axes : List κ) : Prop where
  mem : ∀ a o n, parts a = some (o, n) → a ∈ axes
  extent : ∀ a ∈ axes, ∀ o n, parts a = some (o, n) → ext a = ext o * ext n
  fresh : ∀ a ∈ axes, ∀ o n, parts a = some (o, n) → o ∉ axes ∧ n ∉ axes
  ne : ∀ a ∈ axes, ∀ o n, parts a = some (o, n) → o ≠ n
  disjoint : ∀ a ∈ axes, ∀ b ∈ axes, a ≠ b → ∀ o n o' n', parts a = some (o, n) →
    parts b = some (o', n') → o ≠ o' ∧ o ≠ n' ∧ n ≠ o' ∧ n ≠ n'

omit [DecidableEq κ] in
@[simp] theorem join_of_some {a o n : κ} (h : parts a = some (o, n)) (σ : Point κ) :
    join ext parts σ a = σ o * ext n + σ n := by
  simp only [join, h]

omit [DecidableEq κ] in
@[simp] theorem join_of_none {a : κ} (h : parts a = none) (σ : Point κ) :
    join ext parts σ a = σ a := by
  simp only [join, h]

namespace Regroup

variable (h : Regroup ext parts axes)

include h

/-- An axis without parts moves by itself. -/
theorem join_update {a : κ} (ha : a ∈ axes) (hnone : parts a = none) (σ : Point κ) (i : ℕ) :
    ∀ c ∈ axes, join ext parts (Function.update σ a i) c =
      Function.update (join ext parts σ) a i c := by
  intro c hc
  by_cases hca : c = a
  · subst hca
    rw [join_of_none hnone, Function.update_self, Function.update_self]
  · rw [Function.update_of_ne hca]
    cases hp : parts c with
    | none => rw [join_of_none hp, join_of_none hp, Function.update_of_ne hca]
    | some p =>
      obtain ⟨o, n⟩ := p
      obtain ⟨ho, hn⟩ := h.fresh c hc o n hp
      have hoa : o ≠ a := fun heq => ho (heq ▸ ha)
      have hna : n ≠ a := fun heq => hn (heq ▸ ha)
      rw [join_of_some hp, join_of_some hp, Function.update_of_ne hoa, Function.update_of_ne hna]

/-- The two parts of an axis move it. -/
theorem join_update_parts {a o n : κ} (ha : a ∈ axes) (hp : parts a = some (o, n)) (σ : Point κ)
    (x y : ℕ) : ∀ c ∈ axes, join ext parts (Function.update (Function.update σ o x) n y) c =
      Function.update (join ext parts σ) a (x * ext n + y) c := by
  intro c hc
  obtain ⟨ho, hn⟩ := h.fresh a ha o n hp
  by_cases hca : c = a
  · subst hca
    rw [join_of_some hp, Function.update_self, Function.update_self,
      Function.update_of_ne (h.ne c ha o n hp), Function.update_self]
  · rw [Function.update_of_ne hca]
    cases hq : parts c with
    | none =>
      have hco : c ≠ o := fun heq => ho (heq ▸ hc)
      have hcn : c ≠ n := fun heq => hn (heq ▸ hc)
      rw [join_of_none hq, join_of_none hq, Function.update_of_ne hcn, Function.update_of_ne hco]
    | some q =>
      obtain ⟨o', n'⟩ := q
      obtain ⟨h₁, h₂, h₃, h₄⟩ := h.disjoint c hc a ha hca o' n' o n hq hp
      rw [join_of_some hq, join_of_some hq, Function.update_of_ne h₂, Function.update_of_ne h₁,
        Function.update_of_ne h₄, Function.update_of_ne h₃]

omit [DecidableEq κ] in
/-- The parts of distinct axes are distinct. -/
theorem nodup_expand {as : List κ} (has : ∀ a ∈ as, a ∈ axes) (hnodup : as.Nodup) :
    (as.flatMap (expand parts)).Nodup := by
  refine List.nodup_flatMap.mpr ⟨fun a ha => ?_, hnodup.imp_of_mem fun {a b} ha hb hab => ?_⟩
  · cases hp : parts a with
    | none => simp [expand, hp]
    | some p => simpa [expand, hp] using h.ne a (has a ha) p.1 p.2 hp
  · have hmem : ∀ {c x}, x ∈ expand parts c → c ∈ axes →
        (parts c = none ∧ x = c) ∨ ∃ o n, parts c = some (o, n) ∧ (x = o ∨ x = n) := by
      intro c x hx hc
      cases hp : parts c with
      | none => exact .inl ⟨rfl, by simpa [expand, hp] using hx⟩
      | some p => exact .inr ⟨p.1, p.2, rfl, by simpa [expand, hp] using hx⟩
    intro x hxa hxb
    rcases hmem hxa (has a ha) with ⟨-, rfl⟩ | ⟨o, n, hp, hx⟩ <;>
      rcases hmem hxb (has b hb) with ⟨-, rfl⟩ | ⟨o', n', hq, hx'⟩
    · exact hab rfl
    · obtain ⟨ho, hn⟩ := h.fresh b (has b hb) o' n' hq
      rcases hx' with rfl | rfl
      · exact ho (has x ha)
      · exact hn (has x ha)
    · obtain ⟨ho, hn⟩ := h.fresh a (has a ha) o n hp
      rcases hx with rfl | rfl
      · exact ho (has x hb)
      · exact hn (has x hb)
    · obtain ⟨h₁, h₂, h₃, h₄⟩ :=
        h.disjoint a (has a ha) b (has b hb) hab o n o' n' hp hq
      rcases hx with rfl | rfl <;> rcases hx' with rfl | rfl <;> contradiction

/-- The points of the parts are those of the axes. -/
theorem map_points_expand (hf : Reads f axes) {as : List κ} (has : ∀ a ∈ as, a ∈ axes)
    (σ : Point κ) :
    (points ext (as.flatMap (expand parts)) σ).map (f ∘ join ext parts) =
      (points ext as (join ext parts σ)).map f := by
  induction as generalizing σ with
  | nil => rfl
  | cons a as ih =>
    have ha := has a (List.mem_cons_self ..)
    have ih' := ih fun b hb => has b (List.mem_cons_of_mem _ hb)
    rw [List.flatMap_cons]
    cases hp : parts a with
    | none =>
      simp only [expand, hp, List.singleton_append, points, List.map_flatMap]
      refine List.flatMap_congr fun i _ => ?_
      rw [ih']
      exact map_points_congr hf fun c hc _ => h.join_update ha hp σ i c hc
    | some p =>
      obtain ⟨o, n⟩ := p
      -- at a fixed index of the axis
      let g : ℕ → List β := fun i =>
        (points ext as (Function.update (join ext parts σ) a i)).map f
      have hleft : (points ext ([o, n] ++ as.flatMap (expand parts)) σ).map
          (f ∘ join ext parts) = (List.range (ext o)).flatMap fun x =>
            (List.range (ext n)).flatMap fun y => g (x * ext n + y) := by
        simp only [List.cons_append, List.nil_append, points, List.map_flatMap]
        refine List.flatMap_congr fun x _ => List.flatMap_congr fun y _ => ?_
        rw [ih']
        exact map_points_congr hf fun c hc _ => h.join_update_parts ha hp σ x y c hc
      simp only [expand, hp]
      rw [hleft, ← flatMap_range_mul, ← h.extent a ha o n hp]
      simp only [points, List.map_flatMap]
      refine List.flatMap_congr fun k _ => ?_
      rw [Nat.div_add_mod']

end Regroup

/-- The indices lie inside the extents that are not empty. -/
def Inside (ext : κ → ℕ) (σ : Point κ) : Prop := ∀ a, 0 < ext a → σ a < ext a

namespace Regroup

variable (h : Regroup ext parts axes)

include h

omit [DecidableEq κ] in
/-- The joined indices lie inside. -/
theorem join_inside {σ : Point κ} (hσ : Inside ext σ) : Inside ext (join ext parts σ) := by
  intro a hpos
  cases hp : parts a with
  | none =>
    rw [join_of_none hp]
    exact hσ a hpos
  | some p =>
    obtain ⟨o, n⟩ := p
    have hext := h.extent a (h.mem a o n hp) o n hp
    rw [hext] at hpos
    have ho := hσ o (Nat.pos_of_mul_pos_right hpos)
    have hn := hσ n (Nat.pos_of_mul_pos_left hpos)
    rw [join_of_some hp, hext]
    calc σ o * ext n + σ n < σ o * ext n + ext n := by omega
      _ = (σ o + 1) * ext n := (Nat.succ_mul _ _).symm
      _ ≤ ext o * ext n := Nat.mul_le_mul_right _ ho

omit [DecidableEq κ] in
/-- A joined index determines those of the parts. -/
theorem join_injective {a : κ} (ha : a ∈ axes) (hpos : 0 < ext a) {σ σ' : Point κ}
    (hσ : Inside ext σ) (hσ' : Inside ext σ') (hjoin : join ext parts σ a = join ext parts σ' a) :
    ∀ x ∈ expand parts a, σ x = σ' x := by
  intro x hx
  cases hp : parts a with
  | none =>
    obtain rfl : x = a := by simpa [expand, hp] using hx
    rwa [join_of_none hp, join_of_none hp] at hjoin
  | some p =>
    obtain ⟨o, n⟩ := p
    rw [h.extent a ha o n hp] at hpos
    have hlt := hσ n (Nat.pos_of_mul_pos_left hpos)
    have hlt' := hσ' n (Nat.pos_of_mul_pos_left hpos)
    rw [join_of_some hp, join_of_some hp] at hjoin
    have hn : σ n = σ' n := by
      have hmod := congrArg (· % ext n) hjoin
      simpa [Nat.mod_eq_of_lt hlt, Nat.mod_eq_of_lt hlt'] using hmod
    have ho : σ o = σ' o := by
      rw [hn] at hjoin
      exact Nat.eq_of_mul_eq_mul_right (Nat.zero_lt_of_lt hlt) (Nat.add_right_cancel hjoin)
    have hx' : x = o ∨ x = n := by simpa [expand, hp] using hx
    rcases hx' with rfl | rfl
    · exact ho
    · exact hn

/-- Every point is joined from one of the parts. -/
theorem exists_join {τ : Point κ} (hτ : Inside ext τ) {as : List κ} (has : ∀ a ∈ as, a ∈ axes) :
    ∃ σ, Inside ext σ ∧
      (∀ x, (∀ a ∈ as, ∀ o n, parts a = some (o, n) → x ≠ o ∧ x ≠ n) → σ x = τ x) ∧
      ∀ a ∈ as, join ext parts σ a = τ a := by
  induction as with
  | nil => exact ⟨τ, hτ, fun _ _ => rfl, fun a ha => by cases ha⟩
  | cons a as ih =>
    have ha := has a (List.mem_cons_self ..)
    have has' : ∀ b ∈ as, b ∈ axes := fun b hb => has b (List.mem_cons_of_mem _ hb)
    obtain ⟨σ, hσ, hother, hjoin⟩ := ih has'
    cases hp : parts a with
    | none =>
      refine ⟨σ, hσ, fun x hx => hother x fun b hb => hx b (List.mem_cons_of_mem _ hb), ?_⟩
      intro b hb
      rcases List.mem_cons.mp hb with rfl | hb
      · rw [join_of_none hp]
        refine hother b fun c hc o n hq => ?_
        obtain ⟨ho, hn⟩ := h.fresh c (has' c hc) o n hq
        exact ⟨fun heq => ho (heq ▸ ha), fun heq => hn (heq ▸ ha)⟩
      · exact hjoin b hb
    | some p =>
      obtain ⟨o, n⟩ := p
      have hne := h.ne a ha o n hp
      refine ⟨Function.update (Function.update σ o (τ a / ext n)) n (τ a % ext n), ?_, ?_, ?_⟩
      · intro x hx
        by_cases hxn : x = n
        · subst hxn
          rw [Function.update_self]
          exact Nat.mod_lt _ hx
        · rw [Function.update_of_ne hxn]
          by_cases hxo : x = o
          · subst hxo
            rw [Function.update_self]
            rcases Nat.eq_zero_or_pos (ext n) with hzero | hpos
            · rw [hzero, Nat.div_zero]
              exact hx
            · have hlt := hτ a (by rw [h.extent a ha x n hp]; exact Nat.mul_pos hx hpos)
              rw [h.extent a ha x n hp] at hlt
              exact Nat.div_lt_of_lt_mul (by rwa [Nat.mul_comm])
          · rw [Function.update_of_ne hxo]
            exact hσ x hx
      · intro x hx
        obtain ⟨hxo, hxn⟩ := hx a (List.mem_cons_self ..) o n hp
        rw [Function.update_of_ne hxn, Function.update_of_ne hxo]
        exact hother x fun b hb => hx b (List.mem_cons_of_mem _ hb)
      · intro b hb
        rw [h.join_update_parts ha hp σ _ _ b (has b hb)]
        by_cases hba : b = a
        · subst hba
          rw [Function.update_self, Nat.div_add_mod']
        · rw [Function.update_of_ne hba]
          exact hjoin b ((List.mem_cons.mp hb).resolve_left hba)

end Regroup

end Regroup

/-! ## Folds -/

/-- A fold that forgets repetitions depends on the members only. -/
theorem foldl_eq_of_mem_iff {α γ : Type*} [DecidableEq α] {g : γ → α → γ} [RightCommutative g]
    (hidem : ∀ z x, g (g z x) x = g z x) {xs ys : List α} (h : ∀ x, x ∈ xs ↔ x ∈ ys) (z : γ) :
    xs.foldl g z = ys.foldl g z := by
  have habsorb : ∀ (l : List α) (x : α) (z : γ), x ∈ l → l.foldl g (g z x) = l.foldl g z := by
    intro l
    induction l with
    | nil => simp
    | cons y l ih =>
      intro x z hx
      by_cases hxy : x = y
      · rw [List.foldl_cons, List.foldl_cons, hxy, hidem]
      · have hcomm : g (g z x) y = g (g z y) x := RightCommutative.right_comm z x y
        rw [List.foldl_cons, List.foldl_cons, hcomm]
        exact ih x _ ((List.mem_cons.mp hx).resolve_left hxy)
  have hdedup : ∀ (l : List α) (z : γ), l.dedup.foldl g z = l.foldl g z := by
    intro l
    induction l with
    | nil => simp
    | cons x l ih =>
      intro z
      by_cases hx : x ∈ l
      · rw [List.dedup_cons_of_mem hx, ih, List.foldl_cons, habsorb l x z hx]
      · rw [List.dedup_cons_of_notMem hx, List.foldl_cons, List.foldl_cons, ih]
  have hperm : xs.dedup.Perm ys.dedup :=
    (List.perm_ext_iff_of_nodup (List.nodup_dedup _) (List.nodup_dedup _)).mpr fun x => by
      simp [h x]
  rw [← hdedup xs, ← hdedup ys, hperm.foldl_eq]

end Svod.Lib.IndexSpace
