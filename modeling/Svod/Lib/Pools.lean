/-
  Svod.Lib.Pools

  Keyed pools: a finite map of stacks.  What goes in under a key comes out under
  it, the last one first; nothing is lost and nothing comes out twice, which
  `contents` says up to a permutation.
-/

import Mathlib.Data.List.AList

namespace Svod.Lib

/-- The stack of every key, its top first. -/
abbrev Pools (κ α : Type*) := AList fun _ : κ => List α

namespace Pools

variable {κ α : Type*}

/-- Everything pooled. -/
def contents (p : Pools κ α) : List α := p.entries.flatMap Sigma.snd

/-- Everything pooled, with its key. -/
def entriesOf (p : Pools κ α) : List (α × κ) :=
  p.entries.flatMap fun e => e.2.map fun x => (x, e.1)

theorem map_fst_entriesOf (p : Pools κ α) : p.entriesOf.map Prod.fst = p.contents := by
  unfold entriesOf contents
  rw [List.map_flatMap]
  refine List.flatMap_congr fun e _ => ?_
  rw [List.map_map]
  exact List.map_id e.2

variable [DecidableEq κ]

def get (p : Pools κ α) (k : κ) : List α := (p.lookup k).getD []

/-- Takes the top of a stack; an emptied stack is forgotten. -/
def pop (p : Pools κ α) (k : κ) : Option (α × Pools κ α) :=
  match p.lookup k with
  | some (x :: xs) => some (x, if xs.isEmpty then p.erase k else p.insert k xs)
  | _ => none

/-- Puts an element on its stack, unless `cap` of them are there. -/
def pushIfRoom (p : Pools κ α) (k : κ) (x : α) (cap : ℕ) : Pools κ α × Option α :=
  if (p.get k).length < cap then (p.insert k (x :: p.get k), none)
  else (p.insert k (p.get k), some x)

/-! ## Stacks -/

theorem get_insert (p : Pools κ α) (k : κ) (xs : List α) : get (p.insert k xs) k = xs := by
  unfold get
  rw [AList.lookup_insert]
  rfl

theorem get_insert_ne (p : Pools κ α) {k k' : κ} (xs : List α) (h : k' ≠ k) :
    get (p.insert k xs) k' = p.get k' := by
  unfold get
  rw [AList.lookup_insert_ne h]

theorem get_erase (p : Pools κ α) (k : κ) : get (p.erase k) k = [] := by
  unfold get
  rw [AList.lookup_erase]
  rfl

theorem get_erase_ne (p : Pools κ α) {k k' : κ} (h : k' ≠ k) :
    get (p.erase k) k' = p.get k' := by
  unfold get
  rw [AList.lookup_erase_ne h]

/-! ## Contents -/

theorem contents_perm (p : Pools κ α) (k : κ) :
    p.contents.Perm (p.get k ++ contents (p.erase k)) := by
  unfold contents get
  by_cases hk : k ∈ p
  · obtain ⟨xs, l₁, l₂, hl₁, hp, he⟩ := List.exists_of_kerase hk
    have hlookup : p.lookup k = some xs := by
      refine AList.mem_lookup_iff.mpr ?_
      rw [hp]
      exact List.mem_append_right _ List.mem_cons_self
    rw [hlookup, show (p.erase k).entries = l₁ ++ l₂ from he, hp]
    simp only [List.flatMap_append, List.flatMap_cons, Option.getD_some]
    exact (List.perm_append_comm_assoc _ _ _)
  · have herase : (p.erase k).entries = p.entries := List.kerase_of_notMem_keys hk
    rw [AList.lookup_eq_none.mpr hk, herase]
    exact List.Perm.refl _

theorem contents_insert (p : Pools κ α) (k : κ) (xs : List α) :
    contents (p.insert k xs) = xs ++ contents (p.erase k) := by
  unfold contents
  rw [AList.entries_insert, List.flatMap_cons]
  rfl

theorem mem_entriesOf {p : Pools κ α} {x : α} {k : κ} : (x, k) ∈ p.entriesOf ↔ x ∈ p.get k := by
  unfold entriesOf get
  rw [List.mem_flatMap]
  constructor
  · rintro ⟨⟨k', xs⟩, he, hx⟩
    obtain ⟨y, hy, heq⟩ := List.mem_map.mp hx
    cases heq
    rw [AList.mem_lookup_iff.mpr he]
    exact hy
  · intro hx
    cases hk : p.lookup k with
    | none =>
      rw [hk] at hx
      cases hx
    | some xs =>
      rw [hk] at hx
      exact ⟨⟨k, xs⟩, AList.mem_lookup_iff.mp hk, List.mem_map.mpr ⟨x, hx, rfl⟩⟩

/-! ## Operations -/

theorem pop_eq_none {p : Pools κ α} {k : κ} (h : p.get k = []) : p.pop k = none := by
  unfold get at h
  unfold pop
  cases hl : p.lookup k with
  | none => rfl
  | some xs =>
    rw [hl] at h
    obtain rfl : xs = [] := h
    rfl

/-- What `pop` takes, and what it leaves. -/
theorem pop_eq_some {p p' : Pools κ α} {k : κ} {x : α} (h : p.pop k = some (x, p')) :
    p.contents.Perm (x :: p'.contents) ∧ p.get k = x :: p'.get k ∧
      ∀ k', k' ≠ k → p'.get k' = p.get k' := by
  unfold pop at h
  split at h
  · rename_i y xs hl
    cases h
    have hget : p.get k = x :: xs := by
      unfold get
      rw [hl]
      rfl
    have hperm := p.contents_perm k
    rw [hget] at hperm
    cases xs with
    | nil =>
      refine ⟨hperm, ?_, fun k' hk => get_erase_ne p hk⟩
      rw [hget]
      exact congrArg (x :: ·) (get_erase p k).symm
    | cons z zs =>
      refine ⟨?_, ?_, fun k' hk => get_insert_ne p _ hk⟩
      · refine hperm.trans (.of_eq ?_)
        show x :: (z :: zs ++ contents (p.erase k)) = x :: contents (p.insert k (z :: zs))
        rw [contents_insert]
      · rw [hget]
        exact congrArg (x :: ·) (get_insert p k _).symm
  · cases h

/-- What `pushIfRoom` stores: the element, or nothing when the stack is full. -/
theorem pushIfRoom_spec (p : Pools κ α) (k : κ) (x : α) (cap : ℕ) :
    let r := p.pushIfRoom k x cap
    (∀ k', k' ≠ k → r.1.get k' = p.get k') ∧
      ((r.2 = none ∧ (p.get k).length < cap ∧ r.1.get k = x :: p.get k ∧
          r.1.contents.Perm (x :: p.contents)) ∨
        (r.2 = some x ∧ r.1.get k = p.get k ∧ r.1.contents.Perm p.contents)) := by
  intro r
  have hback : (p.get k ++ contents (p.erase k)).Perm p.contents := (p.contents_perm k).symm
  unfold r pushIfRoom
  split_ifs with hroom
  · refine ⟨fun k' hk => get_insert_ne p _ hk, .inl ⟨rfl, hroom, get_insert p k _, ?_⟩⟩
    show (contents (p.insert k (x :: p.get k))).Perm (x :: p.contents)
    rw [contents_insert]
    exact hback.cons x
  · refine ⟨fun k' hk => get_insert_ne p _ hk, .inr ⟨rfl, get_insert p k _, ?_⟩⟩
    show (contents (p.insert k (p.get k))).Perm p.contents
    rw [contents_insert]
    exact hback

end Pools

end Svod.Lib
