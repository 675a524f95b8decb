/-
  Svod.MemoryPlanner.TlsfIndex

  The free-list index of the TLSF allocator: buckets and row counters.

  `IndexRep s rows F` says that the buckets of `s` hold exactly the free blocks
  `F start size`, each once and in the bucket of its size, and that every row
  counter is its row's population.  Inserting and removing a block change `F` by
  that block and nothing else.  `findBlock` returns a listed block that is large
  enough, and fails only when no bucket at or above the target holds one.
-/

import Svod.MemoryPlanner.Tlsf
import Mathlib.Data.List.Nodup
import Mathlib.Algebra.Order.BigOperators.Group.List

namespace Svod.MemoryPlanner.Tlsf

open Svod.Lib.Checked

variable {s : TlsfAllocator} {l1 l2 rows : Nat} {F : Nat → Nat → Prop} {row : List (List Nat)}

/-! ## Bucket arithmetic -/

/-- The column of a size is inside the row. -/
theorem lv2_lt (l2Bits size : Nat) : lv2 l2Bits size < 2 ^ l2Bits := by
  unfold lv2
  by_cases h0 : bitLength size = 0
  · simp [h0]
  simp only [h0, if_false]
  have hlt := lt_two_pow_bitLength size
  rw [Nat.shiftRight_eq_div_pow]
  apply Nat.div_lt_of_lt_mul
  rw [← pow_add]
  calc size - 2 ^ (bitLength size - 1) ≤ size := Nat.sub_le _ _
    _ < 2 ^ bitLength size := hlt
    _ ≤ 2 ^ (bitLength size - l2Bits + l2Bits) :=
        Nat.pow_le_pow_right (by decide) (by omega)

/-- A bucket-aligned size is a lower bound of every bucket at or above its own. -/
theorem le_of_bucket_le {l2Bits size x : Nat} (hl2 : 1 ≤ l2Bits)
    (halign : 2 ^ (bitLength size - l2Bits) ∣ size) (hpos : 0 < x)
    (hle : lv1 size < lv1 x ∨ lv1 size = lv1 x ∧ lv2 l2Bits size ≤ lv2 l2Bits x) :
    size ≤ x := by
  rcases hle with hlt | ⟨heq, hle⟩
  · -- a longer binary representation is a larger number
    by_contra hcon
    have := bitLength_mono (Nat.le_of_lt (Nat.lt_of_not_le hcon))
    simp only [lv1] at hlt
    omega
  · simp only [lv1] at heq
    have hx0 : bitLength x ≠ 0 := Nat.pos_iff_ne_zero.mp (bitLength_pos hpos)
    simp only [lv2, heq, hx0, if_false, Nat.shiftRight_eq_div_pow] at hle
    have hlow := two_pow_le_of_pos hpos
    have hsize : 2 ^ (bitLength x - 1) ≤ size := by
      have hspos : 0 < size := by
        by_contra h0
        have : size = 0 := by omega
        simp [this] at heq
        omega
      have := two_pow_le_of_pos hspos
      rwa [heq] at this
    rw [heq] at halign
    set p := 2 ^ (bitLength x - 1) with hp
    set g := 2 ^ (bitLength x - l2Bits) with hg
    have hgp : g ∣ size - p := Nat.dvd_sub halign (Nat.pow_dvd_pow 2 (by omega))
    have hgpos : 0 < g := Nat.two_pow_pos _
    have hdiv : (size - p) / g * g = size - p := Nat.div_mul_cancel hgp
    have hstep : (size - p) / g * g ≤ x - p :=
      le_trans (Nat.mul_le_mul_right g hle) (Nat.div_mul_le_self _ _)
    omega

namespace TlsfAllocator

/-- The bucket at `(l1, l2)`; empty outside the table. -/
def bucket (s : TlsfAllocator) (l1 l2 : Nat) : List Nat := (s.storage.getD l1 []).getD l2 []

/-! ## The index relation -/

/-- The index of `s` has `rows` rows and lists exactly the blocks of `F`. -/
structure IndexRep (s : TlsfAllocator) (rows : Nat) (F : Nat → Nat → Prop) : Prop where
  storage_len : s.storage.length = rows
  row_len : ∀ row ∈ s.storage, row.length = 2 ^ s.l2Bits
  entries_len : s.lv1Entries.length = rows
  nodup : ∀ l1 l2, (s.bucket l1 l2).Nodup
  mem : ∀ l1 l2 a, a ∈ s.bucket l1 l2 ↔ ∃ z, F a z ∧ lv1 z = l1 ∧ lv2 s.l2Bits z = l2
  count : ∀ l1, s.lv1Entries.getD l1 0 = ((s.storage.getD l1 []).map List.length).sum

/-- The allocator with another index; everything else is untouched. -/
def withIndex (s : TlsfAllocator) (storage : List (List (List Nat))) (entries : List Nat) :
    TlsfAllocator :=
  { s with storage := storage, lv1Entries := entries }

/-- `F` together with one more block. -/
def addBlock (F : Nat → Nat → Prop) (start size : Nat) : Nat → Nat → Prop :=
  fun a z => F a z ∨ a = start ∧ z = size

/-- `F` without the block at `start`. -/
def dropBlock (F : Nat → Nat → Prop) (start : Nat) : Nat → Nat → Prop :=
  fun a z => F a z ∧ a ≠ start

theorem IndexRep.congr {F G : Nat → Nat → Prop} (h : s.IndexRep rows F)
    (hFG : ∀ a z, F a z ↔ G a z) : s.IndexRep rows G := by
  have : F = G := by
    funext a z
    exact propext (hFG a z)
  exact this ▸ h

/-- The index does not depend on the block table. -/
theorem IndexRep.of_index_eq {s t : TlsfAllocator} (h : s.IndexRep rows F)
    (hst : t.storage = s.storage) (hle : t.lv1Entries = s.lv1Entries) (hl2 : t.l2Bits = s.l2Bits) :
    t.IndexRep rows F := by
  obtain ⟨h1, h2, h3, h4, h5, h6⟩ := h
  refine ⟨by rw [hst, h1], ?_, by rw [hle, h3], ?_, ?_, ?_⟩
  · rw [hst, hl2]; exact h2
  · intro l1 l2; simpa only [bucket, hst] using h4 l1 l2
  · intro l1 l2 a; simpa only [bucket, hst, hl2] using h5 l1 l2 a
  · intro l1; rw [hst, hle]; exact h6 l1

/-- Rewriting one bucket leaves every other bucket as it was. -/
theorem bucket_set (s : TlsfAllocator) (b entries : List Nat) (hrow : s.storage[l1]? = some row)
    (hl2 : l2 < row.length) (k1 k2 : Nat) :
    (s.withIndex (s.storage.set l1 (row.set l2 b)) entries).bucket k1 k2 =
      if k1 = l1 ∧ k2 = l2 then b else s.bucket k1 k2 := by
  obtain ⟨hlt, hget⟩ := List.getElem?_eq_some_iff.mp hrow
  simp only [withIndex, bucket, List.getD_eq_getElem?_getD, List.getElem?_set]
  by_cases h1 : l1 = k1
  · subst h1
    by_cases h2 : l2 = k2
    · subst h2
      simp [hlt, hl2]
    · have h2' : ¬ k2 = l2 := fun h => h2 h.symm
      simp [hlt, hget, h2, h2']
  · have h1' : ¬ k1 = l1 := fun h => h1 h.symm
    simp [h1, h1']

/-- The row and counter of an in-range size exist. -/
theorem IndexRep.exists_row (h : s.IndexRep rows F) {size : Nat} (hsize : lv1 size < rows) :
    ∃ row, s.storage[lv1 size]? = some row ∧ row.length = 2 ^ s.l2Bits ∧
      row[lv2 s.l2Bits size]? = some (s.bucket (lv1 size) (lv2 s.l2Bits size)) ∧
      s.lv1Entries[lv1 size]? = some ((row.map List.length).sum) := by
  have hlt : lv1 size < s.storage.length := by rw [h.storage_len]; exact hsize
  refine ⟨s.storage[lv1 size], List.getElem?_eq_getElem hlt, ?_, ?_, ?_⟩
  · exact h.row_len _ (List.getElem_mem hlt)
  · have hl2 : lv2 s.l2Bits size < s.storage[lv1 size].length := by
      rw [h.row_len _ (List.getElem_mem hlt)]
      exact lv2_lt _ _
    simp [bucket, List.getD_eq_getElem?_getD, List.getElem?_eq_getElem hlt,
      List.getElem?_eq_getElem hl2]
  · have hlt' : lv1 size < s.lv1Entries.length := by rw [h.entries_len]; exact hsize
    have hc := h.count (lv1 size)
    simp only [List.getD_eq_getElem?_getD, List.getElem?_eq_getElem hlt',
      List.getElem?_eq_getElem hlt, Option.getD_some] at hc
    rw [List.getElem?_eq_getElem hlt', hc]

/-- Replacing one bucket of a row shifts the row's population by the difference. -/
theorem sum_length_set {old : List Nat} (new : List Nat) (h : row[l2]? = some old) :
    ((row.set l2 new).map List.length).sum + old.length =
      (row.map List.length).sum + new.length := by
  induction row generalizing l2 with
  | nil => simp at h
  | cons b row ih =>
    cases l2 with
    | zero =>
      simp only [List.getElem?_cons_zero, Option.some.injEq] at h
      simp [h]
      omega
    | succ l2 =>
      simp only [List.getElem?_cons_succ] at h
      have := ih h
      simp only [List.set_cons_succ, List.map_cons, List.sum_cons]
      omega

/-- Row lengths survive the replacement of a bucket. -/
theorem row_len_set {b : List Nat} {w : Nat} (hrows : ∀ r ∈ s.storage, r.length = w)
    (hrow : s.storage[l1]? = some row) : ∀ r ∈ s.storage.set l1 (row.set l2 b), r.length = w := by
  intro r hr
  rcases List.mem_or_eq_of_mem_set hr with hr | rfl
  · exact hrows r hr
  · rw [List.length_set]
    exact hrows row (List.mem_of_getElem? hrow)

/-- The counters stay row populations when a bucket and its row's counter change together. -/
theorem count_set {old b : List Nat} {k : Nat}
    (hcount : ∀ i, s.lv1Entries.getD i 0 = ((s.storage.getD i []).map List.length).sum)
    (hlen : s.lv1Entries.length = s.storage.length) (hrow : s.storage[l1]? = some row)
    (hold : row[l2]? = some old) (hk : k + old.length = (row.map List.length).sum + b.length)
    (i : Nat) :
    (s.lv1Entries.set l1 k).getD i 0 =
      (((s.storage.set l1 (row.set l2 b)).getD i []).map List.length).sum := by
  obtain ⟨hlt, -⟩ := List.getElem?_eq_some_iff.mp hrow
  have hsum := sum_length_set b hold
  by_cases h1 : l1 = i
  · subst h1
    simp only [List.getD_eq_getElem?_getD, List.getElem?_set, hlt, hlen, if_true,
      Option.getD_some]
    omega
  · have := hcount i
    simp only [List.getD_eq_getElem?_getD, List.getElem?_set, h1, if_false] at this ⊢
    exact this

/-- `insert_block_index` lists a fresh block and changes nothing else. -/
theorem insertBlockIndex_spec (s : TlsfAllocator) (start size : Nat) (h : s.IndexRep rows F)
    (hsize : lv1 size < rows) (hfresh : ∀ z, ¬ F start z) :
    ∃ st le, s.insertBlockIndex start size = some (s.withIndex st le) ∧
      (s.withIndex st le).IndexRep rows (addBlock F start size) := by
  obtain ⟨row, hrow, hrlen, hb, he⟩ := h.exists_row hsize
  have hl2 : lv2 s.l2Bits size < row.length := by rw [hrlen]; exact lv2_lt _ _
  refine ⟨_, _, by simp [insertBlockIndex, hrow, hb, he]; rfl, ?_⟩
  have hbk := fun k1 k2 => bucket_set s
    (s.bucket (lv1 size) (lv2 s.l2Bits size) ++ [start])
    (s.lv1Entries.set (lv1 size) ((row.map List.length).sum + 1)) hrow hl2 k1 k2
  have hnot : start ∉ s.bucket (lv1 size) (lv2 s.l2Bits size) := by
    rw [h.mem]
    rintro ⟨z, hz, -⟩
    exact hfresh z hz
  refine ⟨by simp [withIndex, h.storage_len], row_len_set h.row_len hrow,
    by simp [withIndex, h.entries_len], ?_, ?_, ?_⟩
  · intro k1 k2
    rw [hbk]
    split
    · exact List.nodup_append.mpr ⟨h.nodup _ _, List.nodup_singleton _, by
        intro a ha b hb
        rw [List.mem_singleton] at hb
        rintro rfl
        exact hnot (hb ▸ ha)⟩
    · exact h.nodup k1 k2
  · intro k1 k2 a
    rw [hbk]
    split
    · next hk =>
      obtain ⟨rfl, rfl⟩ := hk
      simp only [List.mem_append, List.mem_singleton, h.mem, addBlock, withIndex]
      constructor
      · rintro (⟨z, hz, h1, h2⟩ | rfl)
        · exact ⟨z, .inl hz, h1, h2⟩
        · exact ⟨size, .inr ⟨rfl, rfl⟩, rfl, rfl⟩
      · rintro ⟨z, hz | ⟨rfl, rfl⟩, h1, h2⟩
        · exact .inl ⟨z, hz, h1, h2⟩
        · exact .inr rfl
    · next hk =>
      simp only [h.mem, addBlock, withIndex]
      constructor
      · rintro ⟨z, hz, h1, h2⟩
        exact ⟨z, .inl hz, h1, h2⟩
      · rintro ⟨z, hz | ⟨rfl, rfl⟩, h1, h2⟩
        · exact ⟨z, hz, h1, h2⟩
        · exact absurd ⟨h1.symm, h2.symm⟩ hk
  · exact count_set h.count (by rw [h.entries_len, h.storage_len]) hrow hb (by simp; omega)

/-- `remove_block_index` unlists a listed block and changes nothing else. -/
theorem removeBlockIndex_spec (start size : Nat) (h : s.IndexRep rows F) (hsize : lv1 size < rows)
    (hF : F start size) (huniq : ∀ z, F start z → z = size) :
    ∃ st le, s.removeBlockIndex start size = some (s.withIndex st le) ∧
      (s.withIndex st le).IndexRep rows (dropBlock F start) := by
  obtain ⟨row, hrow, hrlen, hb, he⟩ := h.exists_row hsize
  have hl2 : lv2 s.l2Bits size < row.length := by rw [hrlen]; exact lv2_lt _ _
  have hmem : start ∈ s.bucket (lv1 size) (lv2 s.l2Bits size) :=
    (h.mem _ _ _).mpr ⟨size, hF, rfl, rfl⟩
  have hlen : 1 ≤ (row.map List.length).sum := by
    have h1 : 1 ≤ (s.bucket (lv1 size) (lv2 s.l2Bits size)).length :=
      List.length_pos_of_mem hmem
    have h2 : (s.bucket (lv1 size) (lv2 s.l2Bits size)).length ∈ row.map List.length :=
      List.mem_map_of_mem (List.mem_of_getElem? hb)
    exact le_trans h1 (List.le_sum_of_mem h2)
  refine ⟨_, _, by
    simp [removeBlockIndex, hrow, hb, he, hmem, checkedSub_of_le hlen]; rfl, ?_⟩
  have hbk := fun k1 k2 => bucket_set s
    ((s.bucket (lv1 size) (lv2 s.l2Bits size)).erase start)
    (s.lv1Entries.set (lv1 size) ((row.map List.length).sum - 1)) hrow hl2 k1 k2
  have hnd := h.nodup (lv1 size) (lv2 s.l2Bits size)
  refine ⟨by simp [withIndex, h.storage_len], row_len_set h.row_len hrow,
    by simp [withIndex, h.entries_len], ?_, ?_, ?_⟩
  · intro k1 k2
    rw [hbk]
    split
    · exact hnd.erase start
    · exact h.nodup k1 k2
  · intro k1 k2 a
    rw [hbk]
    split
    · next hk =>
      obtain ⟨rfl, rfl⟩ := hk
      simp only [hnd.mem_erase_iff, h.mem, dropBlock, withIndex]
      constructor
      · rintro ⟨hne, z, hz, h1, h2⟩
        exact ⟨z, ⟨hz, hne⟩, h1, h2⟩
      · rintro ⟨z, ⟨hz, hne⟩, h1, h2⟩
        exact ⟨hne, z, hz, h1, h2⟩
    · next hk =>
      simp only [h.mem, dropBlock, withIndex]
      constructor
      · rintro ⟨z, hz, h1, h2⟩
        refine ⟨z, ⟨hz, ?_⟩, h1, h2⟩
        rintro rfl
        have := huniq z hz
        subst this
        exact hk ⟨h1.symm, h2.symm⟩
      · rintro ⟨z, ⟨hz, -⟩, h1, h2⟩
        exact ⟨z, hz, h1, h2⟩
  · refine count_set h.count (by rw [h.entries_len, h.storage_len]) hrow hb ?_
    have hlen1 : 0 < (s.bucket (lv1 size) (lv2 s.l2Bits size)).length :=
      List.length_pos_of_mem hmem
    rw [List.length_erase_of_mem hmem]
    omega

/-! ## The search -/

/-- `find_in_row` returns the head of the first non-empty bucket of the row. -/
theorem exists_of_findInRow {l1 l2Start a : Nat} (h : s.findInRow l1 l2Start = some a) :
    ∃ l2, l2Start ≤ l2 ∧ a ∈ s.bucket l1 l2 := by
  obtain ⟨l2, hl2, ha⟩ := List.exists_of_findSome?_eq_some h
  rw [List.mem_range'_1] at hl2
  exact ⟨l2, hl2.1, List.mem_of_head? ha⟩

/-- `find_in_row` fails only on a row whose buckets are empty from `l2Start` on. -/
theorem bucket_eq_nil_of_findInRow {l1 l2Start l2 : Nat} (h : s.findInRow l1 l2Start = none)
    (hl2 : l2Start ≤ l2) : s.bucket l1 l2 = [] := by
  by_cases hlt : l2 < (s.storage.getD l1 []).length
  · have hmem : l2 ∈ List.range' l2Start ((s.storage.getD l1 []).length - l2Start) := by
      rw [List.mem_range'_1]
      omega
    have := List.findSome?_eq_none_iff.mp h l2 hmem
    simpa [bucket] using this
  · have : (s.storage.getD l1 [])[l2]? = none := List.getElem?_eq_none (by omega)
    rw [bucket, List.getD_eq_getElem?_getD, this]
    rfl

/-- A row with counter zero has no listed block. -/
theorem IndexRep.bucket_eq_nil_of_count (h : s.IndexRep rows F) (h0 : s.lv1Entries.getD l1 0 = 0)
    (l2 : Nat) : s.bucket l1 l2 = [] := by
  rw [h.count l1, List.sum_eq_zero_iff] at h0
  by_cases hlt : l2 < (s.storage.getD l1 []).length
  · have hmem : ((s.storage.getD l1 [])[l2]).length ∈ (s.storage.getD l1 []).map List.length :=
      List.mem_map_of_mem (List.getElem_mem hlt)
    have hnil := List.length_eq_zero_iff.mp (h0 _ hmem)
    rw [bucket, List.getD_eq_getElem?_getD, List.getElem?_eq_getElem hlt, Option.getD_some, hnil]
  · have : (s.storage.getD l1 [])[l2]? = none := List.getElem?_eq_none (by omega)
    rw [bucket, List.getD_eq_getElem?_getD, this]
    rfl

/-- The search returns a listed block whose bucket is at or above the target. -/
theorem findBlock_some (h : s.IndexRep rows F) {t1 t2 a : Nat} (ha : s.findBlock t1 t2 = some a) :
    ∃ z, F a z ∧ (t1 < lv1 z ∨ t1 = lv1 z ∧ t2 ≤ lv2 s.l2Bits z) := by
  obtain ⟨l1, hl1, hrow⟩ := List.exists_of_findSome?_eq_some ha
  rw [List.mem_range'_1] at hl1
  split at hrow
  · cases hrow
  obtain ⟨l2, hl2, hmem⟩ := exists_of_findInRow hrow
  obtain ⟨z, hz, h1, h2⟩ := (h.mem _ _ _).mp hmem
  refine ⟨z, hz, ?_⟩
  by_cases heq : l1 = t1
  · rw [if_pos heq] at hl2
    exact .inr ⟨by omega, by omega⟩
  · exact .inl (by omega)

/-- The search fails only when no listed block has its bucket at or above the target. -/
theorem findBlock_none (h : s.IndexRep rows F) {t1 t2 a z : Nat}
    (hnone : s.findBlock t1 t2 = none) (hF : F a z) :
    ¬ (t1 < lv1 z ∨ t1 = lv1 z ∧ t2 ≤ lv2 s.l2Bits z) := by
  intro hle
  have hmem : a ∈ s.bucket (lv1 z) (lv2 s.l2Bits z) := (h.mem _ _ _).mpr ⟨z, hF, rfl, rfl⟩
  have hlt : lv1 z < s.storage.length := by
    by_contra hge
    have hnil : s.storage[lv1 z]? = none := List.getElem?_eq_none (by omega)
    simp [bucket, List.getD_eq_getElem?_getD, hnil] at hmem
  have hin : lv1 z ∈ List.range' t1 (s.storage.length - t1) := by
    rw [List.mem_range'_1]
    omega
  have hrow := List.findSome?_eq_none_iff.mp hnone (lv1 z) hin
  split at hrow
  · next h0 => rw [h.bucket_eq_nil_of_count h0] at hmem; cases hmem
  · have hstart : (if lv1 z = t1 then t2 else 0) ≤ lv2 s.l2Bits z := by
      split <;> omega
    rw [bucket_eq_nil_of_findInRow hrow hstart] at hmem
    cases hmem

end TlsfAllocator

end Svod.MemoryPlanner.Tlsf
