/-
  Svod.Lib.Intervals

  Half-open intervals over a linear order, as pairs of a start and an end, and
  the sweep that merges the ones that overlap or touch.

  `Merged ivs out` says what the merge is for: the results lie apart, every
  interval is inside one of them, and their ends are ends of the intervals.
  `Tiles a b pieces` says that the pieces cut `[a, b)` without loss or overlap.
-/

import Mathlib.Data.List.Sort
import Mathlib.Order.MinMax

namespace Svod.Intervals

variable {α : Type*} [LinearOrder α]

/-- The interval is not empty. -/
def Proper (iv : α × α) : Prop := iv.1 < iv.2

/-- The first interval ends before the second starts. -/
def Apart (a b : α × α) : Prop := a.2 < b.1

/-- The first interval is inside the second. -/
def Inside (a b : α × α) : Prop := b.1 ≤ a.1 ∧ a.2 ≤ b.2

/-- Intervals in order, none empty, with a gap before each next one. -/
structure Spaced (ivs : List (α × α)) : Prop where
  proper : ∀ iv ∈ ivs, Proper iv
  apart : ivs.Pairwise Apart

/-- The result of a merge of `ivs`. -/
structure Merged (ivs out : List (α × α)) : Prop where
  spaced : Spaced out
  /-- Every interval is inside one of the results. -/
  covers : ∀ iv ∈ ivs, ∃ r ∈ out, Inside iv r
  /-- A result starts where an interval does. -/
  starts : ∀ r ∈ out, ∃ iv ∈ ivs, iv.1 = r.1
  /-- A result ends where an interval does. -/
  ends : ∀ r ∈ out, ∃ iv ∈ ivs, iv.2 = r.2

/-- Intervals in order, none empty; one may end where the next one starts. -/
structure Ordered (ivs : List (α × α)) : Prop where
  proper : ∀ iv ∈ ivs, Proper iv
  before : ivs.Pairwise fun a b => a.2 ≤ b.1

/-- Consecutive pieces that are not empty, from `a` to `b`. -/
def Tiles (a b : α) : List (α × α) → Prop
  | [] => a = b
  | p :: ps => p.1 = a ∧ Proper p ∧ Tiles p.2 b ps

/-- Intervals from `a` that go forward, leave no gap, and reach `b`. -/
def Steps (a b : α) : List (α × α) → Prop
  | [] => False
  | [p] => p.1 = a ∧ p.2 = b
  | p :: q :: ps => p.1 = a ∧ p.1 < q.1 ∧ q.1 ≤ p.2 ∧ Steps q.1 b (q :: ps)

/-! ## Spaced intervals -/

namespace Spaced

variable {ivs : List (α × α)}

theorem nil : Spaced ([] : List (α × α)) := ⟨by simp, .nil⟩

theorem singleton {iv : α × α} (hiv : Proper iv) : Spaced [iv] :=
  ⟨by simpa using hiv, List.pairwise_singleton _ _⟩

theorem cons {iv : α × α} (h : Spaced ivs) (hiv : Proper iv) (hapart : ∀ x ∈ ivs, Apart iv x) :
    Spaced (iv :: ivs) :=
  ⟨List.forall_mem_cons.mpr ⟨hiv, h.proper⟩, List.pairwise_cons.mpr ⟨hapart, h.apart⟩⟩

theorem tail {iv : α × α} (h : Spaced (iv :: ivs)) : Spaced ivs :=
  ⟨fun x hx => h.proper x (List.mem_cons_of_mem _ hx), (List.pairwise_cons.mp h.apart).2⟩

theorem sublist {kept : List (α × α)} (h : Spaced ivs) (hkept : kept.Sublist ivs) :
    Spaced kept :=
  ⟨fun x hx => h.proper x (hkept.subset hx), h.apart.sublist hkept⟩

theorem eq_or_apart (h : Spaced ivs) {a b : α × α} (ha : a ∈ ivs) (hb : b ∈ ivs) :
    a = b ∨ Apart a b ∨ Apart b a := by
  induction ivs with
  | nil => exact absurd ha List.not_mem_nil
  | cons iv ivs ih =>
    have hhead := (List.pairwise_cons.mp h.apart).1
    rcases List.mem_cons.mp ha with ha' | ha'
    · rcases List.mem_cons.mp hb with hb' | hb'
      · exact .inl (ha'.trans hb'.symm)
      · exact .inr (.inl (ha' ▸ hhead b hb'))
    · rcases List.mem_cons.mp hb with hb' | hb'
      · exact .inr (.inr (hb' ▸ hhead a ha'))
      · exact ih h.tail ha' hb'

/-- Two intervals that have a point in common are the same. -/
theorem eq_of_mem (h : Spaced ivs) {a b : α × α} (ha : a ∈ ivs) (hb : b ∈ ivs) {p : α}
    (hpa : a.1 ≤ p ∧ p ≤ a.2) (hpb : b.1 ≤ p ∧ p ≤ b.2) : a = b := by
  rcases h.eq_or_apart ha hb with heq | hab | hba
  · exact heq
  · exact absurd (hpa.2.trans_lt hab) hpb.1.not_gt
  · exact absurd (hpb.2.trans_lt hba) hpa.1.not_gt

theorem apart_of_mem_zip (h : Spaced ivs) {x y : α × α} (hxy : (x, y) ∈ ivs.zip ivs.tail) :
    Apart x y := by
  induction ivs with
  | nil => exact absurd hxy List.not_mem_nil
  | cons a rest ih =>
    cases rest with
    | nil => exact absurd hxy List.not_mem_nil
    | cons b rest =>
      rcases List.mem_cons.mp hxy with heq | hxy
      · obtain ⟨rfl, rfl⟩ := Prod.mk.inj heq
        exact (List.pairwise_cons.mp h.apart).1 y List.mem_cons_self
      · exact ih h.tail hxy

/-- After an interval that is not the last one comes a next one. -/
theorem next (h : Spaced ivs) {x y : α × α} (hx : x ∈ ivs) (hy : y ∈ ivs) (hxy : Apart x y) :
    ∃ z, (x, z) ∈ ivs.zip ivs.tail ∧ z.1 ≤ y.1 := by
  induction ivs with
  | nil => exact absurd hx List.not_mem_nil
  | cons a rest ih =>
    have hhead := (List.pairwise_cons.mp h.apart).1
    cases rest with
    | nil =>
      rw [List.mem_singleton.mp hx, List.mem_singleton.mp hy] at hxy
      exact absurd hxy (h.proper a List.mem_cons_self).le.not_gt
    | cons b rest =>
      rcases List.mem_cons.mp hx with rfl | hx'
      · refine ⟨b, List.mem_cons_self, ?_⟩
        rcases List.mem_cons.mp hy with rfl | hy'
        · exact absurd hxy (h.proper y hy).le.not_gt
        · rcases List.mem_cons.mp hy' with rfl | hy'
          · exact le_rfl
          · have hb := (List.pairwise_cons.mp h.tail.apart).1 y hy'
            exact ((h.proper b (by simp)).trans hb).le
      · rcases List.mem_cons.mp hy with rfl | hy'
        · -- `x` is after `y`, so it does not end before `y` starts
          have hyx : y.2 < x.1 := hhead x hx'
          exact absurd (((h.proper y hy).trans hyx).trans (h.proper x hx)) hxy.le.not_gt
        · obtain ⟨z, hz, hzy⟩ := ih h.tail hx' hy'
          exact ⟨z, List.mem_cons_of_mem _ hz, hzy⟩

end Spaced

/-! ## The sweep -/

/-- The sweep over intervals sorted by their start: `last` is extended by the next interval when
    that one starts no later than `last` ends. -/
def sweep (last : α × α) : List (α × α) → List (α × α)
  | [] => [last]
  | iv :: ivs =>
    if iv.1 ≤ last.2 then sweep (last.1, max last.2 iv.2) ivs else last :: sweep iv ivs

/-- Sort by start and merge the intervals that overlap or touch. -/
def mergeOverlaps (ivs : List (α × α)) : List (α × α) :=
  match ivs.mergeSort fun a b => decide (a.1 ≤ b.1) with
  | [] => []
  | iv :: ivs => sweep iv ivs

namespace Merged

variable {ivs out : List (α × α)}

theorem congr {ivs' : List (α × α)} (h : Merged ivs out) (hmem : ∀ iv, iv ∈ ivs ↔ iv ∈ ivs') :
    Merged ivs' out where
  spaced := h.spaced
  covers iv hiv := h.covers iv ((hmem iv).mpr hiv)
  starts r hr := (h.starts r hr).imp fun iv hiv => ⟨(hmem iv).mp hiv.1, hiv.2⟩
  ends r hr := (h.ends r hr).imp fun iv hiv => ⟨(hmem iv).mp hiv.1, hiv.2⟩

theorem singleton {iv : α × α} (hiv : Proper iv) : Merged [iv] [iv] where
  spaced := .singleton hiv
  covers x hx := ⟨x, hx, le_rfl, le_rfl⟩
  starts x hx := ⟨x, hx, rfl⟩
  ends x hx := ⟨x, hx, rfl⟩

/-- The merge of the first two intervals in one. -/
theorem absorb {last iv : α × α} (h : Merged ((last.1, max last.2 iv.2) :: ivs) out)
    (hle : last.1 ≤ iv.1) : Merged (last :: iv :: ivs) out where
  spaced := h.spaced
  covers x hx := by
    -- the first two are inside their union
    obtain ⟨r, hr, hin⟩ := h.covers _ List.mem_cons_self
    rcases List.mem_cons.mp hx with rfl | hx
    · exact ⟨r, hr, hin.1, (le_max_left _ _).trans hin.2⟩
    · rcases List.mem_cons.mp hx with rfl | hx
      · exact ⟨r, hr, hin.1.trans hle, (le_max_right _ _).trans hin.2⟩
      · exact h.covers x (List.mem_cons_of_mem _ hx)
  starts r hr := by
    obtain ⟨x, hx, heq⟩ := h.starts r hr
    rcases List.mem_cons.mp hx with rfl | hx
    · exact ⟨last, List.mem_cons_self, heq⟩
    · exact ⟨x, List.mem_cons_of_mem _ (List.mem_cons_of_mem _ hx), heq⟩
  ends r hr := by
    obtain ⟨x, hx, heq⟩ := h.ends r hr
    rcases List.mem_cons.mp hx with rfl | hx
    · rcases max_choice last.2 iv.2 with hmax | hmax
      · exact ⟨last, List.mem_cons_self, hmax.symm.trans heq⟩
      · exact ⟨iv, List.mem_cons_of_mem _ List.mem_cons_self, hmax.symm.trans heq⟩
    · exact ⟨x, List.mem_cons_of_mem _ (List.mem_cons_of_mem _ hx), heq⟩

/-- A first interval that ends before all others start stays alone. -/
theorem cons {last : α × α} (h : Merged ivs out) (hlast : Proper last)
    (hapart : ∀ iv ∈ ivs, Apart last iv) : Merged (last :: ivs) (last :: out) where
  spaced := by
    refine h.spaced.cons hlast fun r hr => ?_
    obtain ⟨iv, hiv, heq⟩ := h.starts r hr
    exact lt_of_lt_of_eq (hapart iv hiv) heq
  covers x hx := by
    rcases List.mem_cons.mp hx with rfl | hx
    · exact ⟨x, List.mem_cons_self, le_rfl, le_rfl⟩
    · exact (h.covers x hx).imp fun r hr => ⟨List.mem_cons_of_mem _ hr.1, hr.2⟩
  starts r hr := by
    rcases List.mem_cons.mp hr with rfl | hr
    · exact ⟨r, List.mem_cons_self, rfl⟩
    · exact (h.starts r hr).imp fun x hx => ⟨List.mem_cons_of_mem _ hx.1, hx.2⟩
  ends r hr := by
    rcases List.mem_cons.mp hr with rfl | hr
    · exact ⟨r, List.mem_cons_self, rfl⟩
    · exact (h.ends r hr).imp fun x hx => ⟨List.mem_cons_of_mem _ hx.1, hx.2⟩

end Merged

theorem sweep_merged {last : α × α} {ivs : List (α × α)}
    (hsorted : (last :: ivs).Pairwise fun a b => a.1 ≤ b.1)
    (hproper : ∀ iv ∈ last :: ivs, Proper iv) : Merged (last :: ivs) (sweep last ivs) := by
  induction ivs generalizing last with
  | nil => exact .singleton (hproper last List.mem_cons_self)
  | cons iv ivs ih =>
    obtain ⟨hlast, hrest⟩ := List.pairwise_cons.mp hsorted
    obtain ⟨hplast, hprest⟩ := List.forall_mem_cons.mp hproper
    have hle : last.1 ≤ iv.1 := hlast iv List.mem_cons_self
    rw [sweep]
    split
    case isTrue hover =>
      refine (ih ?_ ?_).absorb hle
      · exact List.pairwise_cons.mpr
          ⟨fun x hx => hlast x (List.mem_cons_of_mem _ hx), (List.pairwise_cons.mp hrest).2⟩
      · exact List.forall_mem_cons.mpr
          ⟨lt_of_lt_of_le hplast (le_max_left _ _), fun x hx => hprest x (List.mem_cons_of_mem _ hx)⟩
    case isFalse hgap =>
      refine (ih hrest hprest).cons hplast fun x hx => ?_
      -- the next interval starts after the end of `last`, and the others no earlier
      rcases List.mem_cons.mp hx with rfl | hx
      · exact not_le.mp hgap
      · exact lt_of_lt_of_le (not_le.mp hgap) ((List.pairwise_cons.mp hrest).1 x hx)

theorem mergeOverlaps_merged {ivs : List (α × α)} (hproper : ∀ iv ∈ ivs, Proper iv) :
    Merged ivs (mergeOverlaps ivs) := by
  have hsorted : (ivs.mergeSort fun a b => decide (a.1 ≤ b.1)).Pairwise fun a b => a.1 ≤ b.1 := by
    refine (List.pairwise_mergeSort (fun a b c => ?_) (fun a b => ?_) ivs).imp fun h => ?_
    · simpa using le_trans
    · simpa using le_total a.1 b.1
    · simpa using h
  have hperm := List.mergeSort_perm ivs fun a b => decide (a.1 ≤ b.1)
  rw [mergeOverlaps]
  refine Merged.congr ?_ fun iv => hperm.mem_iff
  have hproper' : ∀ iv ∈ ivs.mergeSort fun a b => decide (a.1 ≤ b.1), Proper iv :=
    fun iv hiv => hproper iv (hperm.mem_iff.mp hiv)
  split
  case h_1 heq => rw [heq]; exact ⟨.nil, by simp, by simp, by simp⟩
  case h_2 iv rest heq =>
    rw [heq] at hsorted hproper' ⊢
    exact sweep_merged hsorted hproper'

/-! ## Gaps closed by a merge -/

section Bridges

variable {ivs gaps out : List (α × α)} (hivs : Spaced ivs) (hm : Merged (ivs ++ gaps) out)

include hivs hm

/-- When every gap ends where an interval starts, a result ends where an interval does. -/
theorem Merged.end_of_gaps (hgaps : ∀ g ∈ gaps, ∃ x ∈ ivs, x.1 = g.2) {r : α × α}
    (hr : r ∈ out) : ∃ x ∈ ivs, x.2 = r.2 := by
  obtain ⟨x, hx, heq⟩ := hm.ends r hr
  rcases List.mem_append.mp hx with hx | hx
  · exact ⟨x, hx, heq⟩
  · -- the interval after the gap would be in the result and reach beyond its end
    obtain ⟨y, hy, hyx⟩ := hgaps x hx
    obtain ⟨c, hc, hin⟩ := hm.covers y (List.mem_append_left _ hy)
    have hyr : y.1 = r.2 := hyx.trans heq
    have hlt : r.2 < y.2 := hyr ▸ hivs.proper y hy
    have hcr : c = r := hm.spaced.eq_of_mem hc hr
      ⟨hin.1.trans_eq hyr, hlt.le.trans hin.2⟩ ⟨(hm.spaced.proper r hr).le, le_rfl⟩
    exact absurd hlt (hcr ▸ hin.2).not_gt

/-- When every gap starts where an interval ends, a result starts where an interval does. -/
theorem Merged.start_of_gaps (hgaps : ∀ g ∈ gaps, ∃ x ∈ ivs, x.2 = g.1) {r : α × α}
    (hr : r ∈ out) : ∃ x ∈ ivs, x.1 = r.1 := by
  obtain ⟨x, hx, heq⟩ := hm.starts r hr
  rcases List.mem_append.mp hx with hx | hx
  · exact ⟨x, hx, heq⟩
  · obtain ⟨y, hy, hyx⟩ := hgaps x hx
    obtain ⟨c, hc, hin⟩ := hm.covers y (List.mem_append_left _ hy)
    have hyr : y.2 = r.1 := hyx.trans heq
    have hlt : y.1 < r.1 := hyr ▸ hivs.proper y hy
    have hcr : c = r := hm.spaced.eq_of_mem hc hr
      ⟨hin.1.trans hlt.le, hyr.symm.trans_le hin.2⟩ ⟨le_rfl, (hm.spaced.proper r hr).le⟩
    exact absurd hlt (hcr ▸ hin.1).not_gt

omit hivs in
/-- No gap that was merged starts where a result ends. -/
theorem Merged.not_gap_at_end {a g : α × α} (ha : a ∈ out) (hg : g ∈ gaps)
    (hstart : g.1 = a.2) (hproper : Proper g) : False := by
  obtain ⟨c, hc, hin⟩ := hm.covers g (List.mem_append_right _ hg)
  have hlt : a.2 < g.2 := hstart ▸ hproper
  have hca : c = a := hm.spaced.eq_of_mem hc ha
    ⟨hin.1.trans_eq hstart, hlt.le.trans hin.2⟩ ⟨(hm.spaced.proper a ha).le, le_rfl⟩
  exact absurd hlt (hca ▸ hin.2).not_gt

end Bridges

/-! ## Intervals in order -/

namespace Ordered

variable {iv : α × α} {ivs : List (α × α)}

theorem tail (h : Ordered (iv :: ivs)) : Ordered ivs :=
  ⟨fun x hx => h.proper x (List.mem_cons_of_mem _ hx), (List.pairwise_cons.mp h.before).2⟩

end Ordered

/-! ## Pieces of an interval -/

namespace Tiles

variable {a b : α} {ps : List (α × α)}

theorem singleton {iv : α × α} (hiv : Proper iv) : Tiles iv.1 iv.2 [iv] := ⟨rfl, hiv, rfl⟩

end Tiles

/-- A point of one interval is in no other. -/
theorem Ordered.countP_eq_one {ivs : List (α × α)} (h : Ordered ivs) {iv : α × α} (hiv : iv ∈ ivs)
    {x : α} (hlow : iv.1 ≤ x) (hhigh : x < iv.2) :
    (ivs.countP fun r => r.1 ≤ x ∧ x < r.2) = 1 := by
  induction ivs with
  | nil => cases hiv
  | cons p ps ih =>
    obtain ⟨hp, hps⟩ := List.pairwise_cons.mp h.before
    rcases List.mem_cons.mp hiv with rfl | hiv
    · -- the later intervals start past the point
      have hnone : (ps.countP fun r => r.1 ≤ x ∧ x < r.2) = 0 := List.countP_eq_zero.mpr
        fun r hr hin => absurd (hhigh.trans_le (hp r hr)) (not_lt.mpr (of_decide_eq_true hin).1)
      rw [List.countP_cons, hnone, if_pos (decide_eq_true ⟨hlow, hhigh⟩)]
    · have hpast : ¬ (p.1 ≤ x ∧ x < p.2) := fun hin =>
        absurd (hin.2.trans_le (hp iv hiv)) (not_lt.mpr hlow)
      rw [List.countP_cons, if_neg (by simpa using hpast)]
      exact ih ⟨fun r hr => h.proper r (List.mem_cons_of_mem p hr), hps⟩ hiv

/-! ## Steps -/

theorem Steps.cons {a b : α} {p : α × α} {ivs : List (α × α)} {q : α} (h : Steps q b ivs)
    (hp : p.1 = a) (hlt : p.1 < q) (hle : q ≤ p.2) : Steps a b (p :: ivs) := by
  cases ivs with
  | nil => exact h.elim
  | cons r ivs =>
    have hq : r.1 = q := by
      cases ivs with
      | nil => exact h.1
      | cons s ivs => exact h.1
    subst hq
    exact ⟨hp, hlt, hle, h⟩

/-- Every point from the start to the end is in one of the intervals. -/
theorem Steps.covers {a b : α} {ivs : List (α × α)} (h : Steps a b ivs) {x : α} (hax : a ≤ x)
    (hxb : x < b) : ∃ iv ∈ ivs, iv.1 ≤ x ∧ x < iv.2 := by
  induction ivs generalizing a with
  | nil => exact h.elim
  | cons p ivs ih =>
    cases ivs with
    | nil => exact ⟨p, List.mem_singleton_self p, h.1.trans_le hax, hxb.trans_eq h.2.symm⟩
    | cons q ivs =>
      obtain ⟨hp, -, hle, hsteps⟩ := h
      rcases lt_or_ge x q.1 with hlt | hge
      · exact ⟨p, List.mem_cons_self, hp.trans_le hax, hlt.trans_le hle⟩
      · obtain ⟨iv, hiv, hin⟩ := ih hsteps hge
        exact ⟨iv, List.mem_cons_of_mem p hiv, hin⟩

end Svod.Intervals
