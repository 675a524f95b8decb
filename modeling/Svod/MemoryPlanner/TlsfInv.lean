/-
  Svod.MemoryPlanner.TlsfInv

  The representation invariant of the TLSF allocator and its preservation by the
  three mutating primitives.

  `Rep s size L` reads the state `s` of an arena of `size` bytes as the tiling
  `L` of `[0, size)` by blocks: the block table is the linked view of `L` (so
  `prev` and `next` are mutually inverse), and the index lists exactly the free
  blocks.  `split_block`, `merge_right` and `merge_block` are described by what
  they do to `L`.
-/

import Svod.Lib.Tiling
import Svod.MemoryPlanner.TlsfIndex

namespace Svod.MemoryPlanner.Tlsf

open Svod.Lib.Checked Svod.Lib.Tiling

/-- A block of the arena; the tag is `is_free`. -/
abbrev Block := Seg Bool

def BlockMeta.ofLink (l : Link Bool) : BlockMeta := ⟨l.len, l.next, l.prev, l.tag⟩

/-- `a` starts a free block of `z` bytes. -/
def FreeIn (L : List Block) (a z : Nat) : Prop := ∃ b ∈ L, b.start = a ∧ b.len = z ∧ b.tag = true

/-- No two adjacent blocks are both free. -/
def NoAdjFree (L : List Block) : Prop := L.IsChain fun b c => ¬ (b.tag = true ∧ c.tag = true)

@[simp] theorem freeIn_nil (a z : Nat) : ¬ FreeIn [] a z := by simp [FreeIn]

theorem freeIn_cons {b : Block} {L : List Block} {a z : Nat} :
    FreeIn (b :: L) a z ↔ (b.start = a ∧ b.len = z ∧ b.tag = true) ∨ FreeIn L a z := by
  simp [FreeIn]

theorem freeIn_append {A B : List Block} {a z : Nat} :
    FreeIn (A ++ B) a z ↔ FreeIn A a z ∨ FreeIn B a z := by
  simp only [FreeIn, List.mem_append, or_and_right, exists_or]

theorem FreeIn.bounds {lo hi : Nat} {L : List Block} (h : Tiles lo hi L) {a z : Nat}
    (hF : FreeIn L a z) : lo ≤ a ∧ 0 < z ∧ a + z ≤ hi := by
  obtain ⟨b, hb, rfl, rfl, -⟩ := hF
  exact h.mem_bounds hb

/-- A free block is determined by its start. -/
theorem FreeIn.len_unique {lo hi : Nat} {L : List Block} (h : Tiles lo hi L) {a z z' : Nat}
    (hz : FreeIn L a z) (hz' : FreeIn L a z') : z = z' := by
  obtain ⟨b, hb, hba, rfl, -⟩ := hz
  obtain ⟨c, hc, hca, rfl, -⟩ := hz'
  rw [h.start_inj hb hc (hba.trans hca.symm)]

namespace TlsfAllocator

/-- The block table is the linked view of `L`. -/
def TableRep (s : TlsfAllocator) (L : List Block) : Prop :=
  ∀ a, s.blocks a = (links none none L a).map BlockMeta.ofLink

/-- `s` represents the tiling `L` of an arena of `size` bytes. -/
structure Rep (s : TlsfAllocator) (size : Nat) (L : List Block) : Prop where
  tiles : Tiles 0 size L
  table : s.TableRep L
  index : s.IndexRep (bitLength size + 1) (FreeIn L)

/-- Like `TableRep (A ++ b :: C)`, but the back link of the block after `b` is
    whatever `p` says: the state inside a split or a merge, before the
    neighbour is told. -/
def GapRep (s : TlsfAllocator) (A : List Block) (b : Block) (C : List Block)
    (p : Option Nat) : Prop :=
  ∀ a, s.blocks a = ((links none (headStart C none) (A ++ [b]) a).or
    (links p none C a)).map BlockMeta.ofLink

theorem gapRep_of_tableRep {s : TlsfAllocator} {A C : List Block} {b : Block}
    (h : s.TableRep (A ++ b :: C)) : s.GapRep A b C (some b.start) := by
  intro a
  have hsplit : A ++ b :: C = (A ++ [b]) ++ C := by simp
  rw [h a, hsplit, links_append, lastStart_append]
  rfl

/-- Everything but the block table and the index. -/
structure SameConfig (s t : TlsfAllocator) : Prop where
  base : t.base = s.base
  blockSize : t.blockSize = s.blockSize
  l2Bits : t.l2Bits = s.l2Bits
  peakUsed : t.peakUsed = s.peakUsed

theorem SameConfig.refl (s : TlsfAllocator) : SameConfig s s := ⟨rfl, rfl, rfl, rfl⟩

theorem SameConfig.trans {s t u : TlsfAllocator} (h : SameConfig s t) (h' : SameConfig t u) :
    SameConfig s u :=
  ⟨h'.base.trans h.base, h'.blockSize.trans h.blockSize, h'.l2Bits.trans h.l2Bits,
    h'.peakUsed.trans h.peakUsed⟩

@[simp] theorem insertBlock_blocks (s : TlsfAllocator) (start : Nat) (b : BlockMeta) :
    (s.insertBlock start b).blocks = Function.update s.blocks start (some b) := rfl

@[simp] theorem withIndex_blocks (s : TlsfAllocator) (st : List (List (List Nat)))
    (le : List Nat) : (s.withIndex st le).blocks = s.blocks := rfl

theorem IndexRep.insertBlock {s : TlsfAllocator} {rows : Nat} {F : Nat → Nat → Prop}
    (h : s.IndexRep rows F) (start : Nat) (b : BlockMeta) :
    (s.insertBlock start b).IndexRep rows F := h.of_index_eq rfl rfl rfl

theorem IndexRep.removeBlock {s : TlsfAllocator} {rows : Nat} {F : Nat → Nat → Prop}
    (h : s.IndexRep rows F) (start : Nat) :
    (s.removeBlock start).IndexRep rows F := h.of_index_eq rfl rfl rfl

theorem setPrev_sameConfig (s : TlsfAllocator) (n : Option Nat) (prev : Nat) :
    SameConfig s (s.setPrev n prev) := by
  unfold setPrev
  split
  · exact SameConfig.refl s
  · split <;> exact ⟨rfl, rfl, rfl, rfl⟩

theorem IndexRep.setPrev {s : TlsfAllocator} {rows : Nat} {F : Nat → Nat → Prop}
    (h : s.IndexRep rows F) (n : Option Nat) (prev : Nat) :
    (s.setPrev n prev).IndexRep rows F := by
  unfold TlsfAllocator.setPrev
  split
  · exact h
  · split
    · exact h
    · exact h.insertBlock _ _

/-- Telling the block after `b` its new left neighbour closes the gap. -/
theorem tableRep_setPrev {s : TlsfAllocator} {lo hi : Nat} {A C : List Block} {b : Block}
    {p : Option Nat} (htiles : Tiles lo hi (A ++ b :: C)) (h : s.GapRep A b C p) :
    (s.setPrev (headStart C none) b.start).TableRep (A ++ b :: C) := by
  intro a
  have hsplit : A ++ b :: C = (A ++ [b]) ++ C := by simp
  rw [hsplit, links_append, lastStart_append]
  cases C with
  | nil => simpa [setPrev] using h a
  | cons c C =>
    have hAb : Tiles lo c.start (A ++ [b]) := by
      rw [hsplit] at htiles
      exact (tiles_middle.mp htiles).1
    have hc : links none (some c.start) (A ++ [b]) c.start = none :=
      hAb.links_eq_none_of_ge le_rfl
    have hblk := h c.start
    simp only [headStart_cons, hc, links_cons_self, Option.none_or, Option.map_some] at hblk
    simp only [setPrev, headStart_cons, hblk, insertBlock_blocks]
    by_cases ha : a = c.start
    · subst ha
      simp [hc, BlockMeta.ofLink]
    · rw [Function.update_of_ne ha, h a]
      have ha' : c.start ≠ a := Ne.symm ha
      simp only [headStart_cons, links_cons_ne ha']

/-! ## Splitting -/

/-- In-range sizes have a row. -/
theorem lv1_lt_rows {size z : Nat} (h : z ≤ size) : lv1 z < bitLength size + 1 :=
  Nat.lt_succ_of_le (bitLength_mono h)

/-- `split_block` cuts a free block in two, both free. -/
theorem splitBlock_spec {s : TlsfAllocator} {size n : Nat} {A C : List Block} {b : Block}
    (h : s.Rep size (A ++ b :: C)) (hsize : size < wordSize) (hfree : b.tag = true)
    (hn : 0 < n) (hnlt : n < b.len) :
    ∃ s', s.splitBlock b.start b.len n = some s' ∧ SameConfig s s' ∧
      s'.Rep size (A ++ ⟨b.start, n, true⟩ :: ⟨b.start + n, b.len - n, true⟩ :: C) := by
  obtain ⟨htiles, htable, hindex⟩ := h
  obtain ⟨hA, hpos, hC⟩ := tiles_middle.mp htiles
  have hAle := hA.le
  have hCle := hC.le
  simp only [Seg.stop] at hC hCle
  -- the target's own entry
  have hblk : s.blocks b.start =
      some ⟨b.len, headStart C none, lastStart none A, true⟩ := by
    rw [htable b.start, links_middle htiles, hfree]
    rfl
  have hF : FreeIn (A ++ b :: C) b.start b.len := ⟨b, by simp, rfl, rfl, hfree⟩
  -- unlist the block, then list the two halves
  obtain ⟨st1, le1, hrem, hidx1⟩ := removeBlockIndex_spec _ _ hindex (lv1_lt_rows (by omega)) hF
    (fun z hz => hz.len_unique htiles hF)
  set s1 := s.withIndex st1 le1 with hs1
  set s2 := s1.insertBlock b.start ⟨n, some (b.start + n), lastStart none A, true⟩ with hs2
  obtain ⟨st3, le3, hins3, hidx3⟩ := insertBlockIndex_spec s2 b.start n
    (hidx1.insertBlock _ _) (lv1_lt_rows (by omega)) (fun z hz => hz.2 rfl)
  set s3 := s2.withIndex st3 le3 with hs3
  set s4 := s3.insertBlock (b.start + n)
    ⟨b.len - n, headStart C none, some b.start, true⟩ with hs4
  have hfresh : ∀ z, ¬ addBlock (dropBlock (FreeIn (A ++ b :: C)) b.start) b.start n
      (b.start + n) z := by
    rintro z (⟨hz, hne⟩ | ⟨heq, -⟩)
    · rw [freeIn_append, freeIn_cons] at hz
      rcases hz with hz | ⟨heq, -⟩ | hz
      · have := hz.bounds hA; omega
      · omega
      · have := hz.bounds hC; omega
    · omega
  obtain ⟨st5, le5, hins5, hidx5⟩ := insertBlockIndex_spec s4 (b.start + n)
    (b.len - n) (hidx3.insertBlock _ _) (lv1_lt_rows (by omega)) hfresh
  set s5 := s4.withIndex st5 le5 with hs5
  refine ⟨s5.setPrev (headStart C none) (b.start + n), ?_, ?_, ?_⟩
  · simp only [splitBlock, hblk, Option.bind_eq_bind, Option.bind_some, debugAssert, if_true, hrem,
      checkedAdd_of_lt (show b.start + n < wordSize by omega), ← hs2, hins3,
      checkedSub_of_le (Nat.le_of_lt hnlt), ← hs4, hins5]
  · exact SameConfig.trans (t := s5) ⟨rfl, rfl, rfl, rfl⟩ (setPrev_sameConfig _ _ _)
  · have htiles' : Tiles 0 size
        (A ++ ⟨b.start, n, true⟩ :: ⟨b.start + n, b.len - n, true⟩ :: C) := by
      rw [tiles_middle, tiles_cons]
      refine ⟨hA, hn, rfl, by simp; omega, ?_⟩
      simp only [Seg.stop]
      rwa [show b.start + n + (b.len - n) = b.start + b.len by omega]
    refine ⟨htiles', ?_, ?_⟩
    · have hgap : s5.GapRep (A ++ [⟨b.start, n, true⟩]) ⟨b.start + n, b.len - n, true⟩ C
          (some b.start) := by
        intro a
        have hold := gapRep_of_tableRep htable a
        show (Function.update (Function.update s.blocks b.start _) (b.start + n) _) a = _
        by_cases hmid : a = b.start + n
        · subst hmid
          have h1 : links none (some b.start) A (b.start + n) = none :=
            hA.links_eq_none_of_ge (by omega)
          simp [links_append, h1, links_cons, BlockMeta.ofLink, show n ≠ 0 by omega]
        · rw [Function.update_of_ne hmid]
          by_cases hst : a = b.start
          · subst hst
            have h1 : links none (some b.start) A b.start = none :=
              hA.links_eq_none_of_ge le_rfl
            simp [links_append, h1, links_cons, BlockMeta.ofLink]
          · rw [Function.update_of_ne hst, hold]
            have hne1 : b.start ≠ a := Ne.symm hst
            have hne2 : b.start + n ≠ a := Ne.symm hmid
            simp [links_append, links_cons, hne1, hne2]
      have := tableRep_setPrev (A := A ++ [⟨b.start, n, true⟩]) (by simpa using htiles') hgap
      simpa using this
    · refine (hidx5.congr ?_).setPrev _ _
      intro a z
      simp only [addBlock, dropBlock, freeIn_append, freeIn_cons, and_true]
      constructor
      · rintro ((⟨hz | ⟨rfl, -⟩ | hz, hne⟩ | ⟨rfl, rfl⟩) | ⟨rfl, rfl⟩)
        · exact .inl hz
        · exact absurd rfl hne
        · exact .inr (.inr (.inr hz))
        · exact .inr (.inl ⟨rfl, rfl⟩)
        · exact .inr (.inr (.inl ⟨rfl, rfl⟩))
      · rintro (hz | ⟨rfl, rfl⟩ | ⟨rfl, rfl⟩ | hz)
        · have := hz.bounds hA
          exact .inl (.inl ⟨.inl hz, by omega⟩)
        · exact .inl (.inr ⟨rfl, rfl⟩)
        · exact .inr ⟨rfl, rfl⟩
        · have := hz.bounds hC
          exact .inl (.inl ⟨.inr (.inr hz), by omega⟩)

/-! ## Merging -/

/-- The free blocks at the head of a list, as one length. -/
def freeRun : List Block → Nat
  | [] => 0
  | b :: L => if b.tag then b.len + freeRun L else 0

/-- What is left of a list after the free blocks at its head. -/
def afterRun : List Block → List Block
  | [] => []
  | b :: L => if b.tag then afterRun L else b :: L

theorem tiles_afterRun {lo hi : Nat} {C : List Block} (h : Tiles lo hi C) :
    Tiles (lo + freeRun C) hi (afterRun C) := by
  induction C generalizing lo with
  | nil => exact h
  | cons c C ih =>
    obtain ⟨rfl, hpos, hC⟩ := h
    by_cases hc : c.tag = true
    · have := ih hC
      simp only [freeRun, afterRun, hc, if_true]
      rwa [← Nat.add_assoc]
    · simp only [freeRun, afterRun, hc]
      exact ⟨rfl, hpos, hC⟩

/-- The loop of `merge_right` absorbs exactly the free blocks after `b`. -/
theorem mergeRightLoop_spec {size : Nat} (hsize : size < wordSize) {A C : List Block}
    {b : Block} (fuel : Nat) (hfuel : C.length < fuel) {s : TlsfAllocator} {p : Option Nat}
    (hfree : b.tag = true) (htiles : Tiles 0 size (A ++ b :: C)) (hgap : s.GapRep A b C p)
    (hidx : s.IndexRep (bitLength size + 1) (FreeIn (A ++ b :: C))) :
    ∃ s' p', mergeRightLoop fuel s b.start b.len (headStart C none) =
        some (s', headStart (afterRun C) none) ∧ SameConfig s s' ∧
      s'.GapRep A ⟨b.start, b.len + freeRun C, true⟩ (afterRun C) p' ∧
      s'.IndexRep (bitLength size + 1)
        (FreeIn (A ++ ⟨b.start, b.len + freeRun C, true⟩ :: afterRun C)) := by
  induction C generalizing b s p fuel with
  | nil =>
    obtain ⟨f, rfl⟩ : ∃ f, fuel = f + 1 := ⟨fuel - 1, by simp at hfuel; omega⟩
    obtain ⟨st, len, tag⟩ := b
    subst hfree
    exact ⟨s, p, rfl, SameConfig.refl s, hgap, hidx⟩
  | cons c C ih =>
    obtain ⟨f, rfl⟩ : ∃ f, fuel = f + 1 := ⟨fuel - 1, by simp at hfuel; omega⟩
    obtain ⟨hA, hpos, hcC⟩ := tiles_middle.mp htiles
    obtain ⟨hcs, hcpos, hC⟩ := hcC
    have hAle := hA.le
    have hCle := hC.le
    simp only [Seg.stop] at hcs hC hCle
    have hAb : Tiles 0 c.start (A ++ [b]) := by
      rw [tiles_append]
      exact ⟨b.start, hA, rfl, hpos, by simp [Seg.stop, hcs]⟩
    -- the neighbour's entry, whatever its back link says
    have hblk : s.blocks c.start = some ⟨c.len, headStart C none, p, c.tag⟩ := by
      rw [hgap c.start, headStart_cons, hAb.links_eq_none_of_ge le_rfl]
      simp [BlockMeta.ofLink]
    by_cases hc : c.tag = true
    · have hcur : s.blocks b.start =
          some ⟨b.len, some c.start, lastStart none A, true⟩ := by
        rw [hgap b.start, headStart_cons, links_append, hA.links_eq_none_of_ge le_rfl]
        simp [BlockMeta.ofLink, hfree]
      -- unlist both blocks and list their union
      have hFb : FreeIn (A ++ b :: c :: C) b.start b.len := ⟨b, by simp, rfl, rfl, hfree⟩
      have hFc : FreeIn (A ++ b :: c :: C) c.start c.len := ⟨c, by simp, rfl, rfl, hc⟩
      obtain ⟨st1, le1, hrem1, hidx1⟩ := removeBlockIndex_spec _ _ hidx (lv1_lt_rows (by omega)) hFb
        (fun z hz => hz.len_unique htiles hFb)
      set s1 := s.withIndex st1 le1 with hs1
      obtain ⟨st2, le2, hrem2, hidx2⟩ := removeBlockIndex_spec c.start c.len
        hidx1 (lv1_lt_rows (by omega)) ⟨hFc, by omega⟩
        (fun z hz => hz.1.len_unique htiles hFc)
      set s2 := s1.withIndex st2 le2 with hs2
      set s3 := s2.insertBlock b.start
        ⟨b.len + c.len, headStart C none, lastStart none A, true⟩ with hs3
      obtain ⟨st4, le4, hins4, hidx4⟩ := insertBlockIndex_spec s3 b.start
        (b.len + c.len) (hidx2.insertBlock _ _) (lv1_lt_rows (by omega))
        (fun z hz => hz.1.2 rfl)
      set s4 := s3.withIndex st4 le4 with hs4
      have htiles' : Tiles 0 size (A ++ ⟨b.start, b.len + c.len, true⟩ :: C) := by
        rw [tiles_middle]
        refine ⟨hA, by simp; omega, ?_⟩
        simp only [Seg.stop]
        rwa [← Nat.add_assoc, ← hcs]
      have hgap' : (s4.removeBlock c.start).GapRep A ⟨b.start, b.len + c.len, true⟩ C
          (some c.start) := by
        intro a
        have hold := hgap a
        show Function.update (Function.update s.blocks b.start _) c.start none a = _
        by_cases hac : a = c.start
        · subst hac
          have h1 : links none (some b.start) A c.start = none :=
            hA.links_eq_none_of_ge (by omega)
          have h2 : links (some c.start) none C c.start = none :=
            hC.links_eq_none_of_lt (by omega)
          simp [links_append, h1, h2, links_cons, show b.start ≠ c.start by omega]
        · rw [Function.update_of_ne hac]
          by_cases hab : a = b.start
          · subst hab
            have h1 : links none (some b.start) A b.start = none :=
              hA.links_eq_none_of_ge le_rfl
            simp [links_append, h1, links_cons, BlockMeta.ofLink]
          · rw [Function.update_of_ne hab, hold]
            have hne1 : b.start ≠ a := Ne.symm hab
            have hne2 : c.start ≠ a := Ne.symm hac
            simp [links_append, links_cons, hne1, hne2]
      have hidx' : (s4.removeBlock c.start).IndexRep (bitLength size + 1)
          (FreeIn (A ++ ⟨b.start, b.len + c.len, true⟩ :: C)) := by
        refine (hidx4.congr ?_).removeBlock _
        intro a z
        simp only [addBlock, dropBlock, freeIn_append, freeIn_cons, and_true]
        constructor
        · rintro (⟨⟨hz | ⟨rfl, -⟩ | ⟨rfl, -⟩ | hz, hne⟩, hne'⟩ | ⟨rfl, rfl⟩)
          · exact .inl hz
          · exact absurd rfl hne
          · exact absurd rfl hne'
          · exact .inr (.inr hz)
          · exact .inr (.inl ⟨rfl, rfl⟩)
        · rintro (hz | ⟨rfl, rfl⟩ | hz)
          · have := hz.bounds hA
            exact .inl ⟨⟨.inl hz, by omega⟩, by omega⟩
          · exact .inr ⟨rfl, rfl⟩
          · have := hz.bounds hC
            exact .inl ⟨⟨.inr (.inr (.inr hz)), by omega⟩, by omega⟩
      obtain ⟨s', p', hrun, hcfg, hg, hi⟩ := @ih
        ⟨b.start, b.len + c.len, true⟩ f (by simp at hfuel; omega) (s4.removeBlock c.start) _
        rfl htiles' hgap' hidx'
      refine ⟨s', p', ?_, SameConfig.trans (t := s4.removeBlock c.start) ⟨rfl, rfl, rfl, rfl⟩ hcfg,
        ?_, ?_⟩
      · simp only [headStart_cons, mergeRightLoop, hblk, hc, if_true, Option.bind_eq_bind,
          hrem1, Option.bind_some, hrem2, show s2.blocks = s.blocks from rfl, hcur,
          checkedAdd_of_lt (show b.len + c.len < wordSize by omega), ← hs3, hins4, afterRun]
        exact hrun
      · simpa only [freeRun, afterRun, hc, if_true, ← Nat.add_assoc] using hg
      · simpa only [freeRun, afterRun, hc, if_true, ← Nat.add_assoc] using hi
    · refine ⟨s, p, ?_, SameConfig.refl s, ?_, ?_⟩
      · simp [mergeRightLoop, hblk, hc, afterRun]
      · obtain ⟨st, len, tag⟩ := b
        subst hfree
        simpa [freeRun, afterRun, hc] using hgap
      · obtain ⟨st, len, tag⟩ := b
        subst hfree
        simpa [freeRun, afterRun, hc] using hidx

/-- No tiling has more blocks than bytes, so `fuel` exceeds the block count. -/
theorem Rep.length_lt_fuel {s : TlsfAllocator} {size : Nat} {L : List Block}
    (h : s.Rep size L) : L.length < s.fuel := by
  have h1 := h.tiles.length_le
  have h2 := lt_two_pow_bitLength size
  have h3 : 2 ^ bitLength size ≤ s.fuel := by
    unfold fuel
    rw [h.index.storage_len]
    exact Nat.pow_le_pow_right (by decide) (Nat.le_succ _)
  omega

/-- `merge_right` absorbs the free blocks after `b` into `b`. -/
theorem mergeRight_spec {s : TlsfAllocator} {size : Nat} {A C : List Block} {b : Block}
    (h : s.Rep size (A ++ b :: C)) (hsize : size < wordSize) (hfree : b.tag = true) :
    ∃ s', s.mergeRight b.start = some s' ∧ SameConfig s s' ∧
      s'.Rep size (A ++ ⟨b.start, b.len + freeRun C, true⟩ :: afterRun C) := by
  have hfuel := h.length_lt_fuel
  obtain ⟨htiles, htable, hindex⟩ := h
  obtain ⟨hA, hpos, hC⟩ := tiles_middle.mp htiles
  have hblk : s.blocks b.start =
      some ⟨b.len, headStart C none, lastStart none A, true⟩ := by
    rw [htable b.start, links_middle htiles, hfree]
    rfl
  obtain ⟨s', p', hrun, hcfg, hgap, hidx⟩ := mergeRightLoop_spec hsize s.fuel
    (by simp at hfuel; omega) hfree htiles (gapRep_of_tableRep htable) hindex
  have htiles' : Tiles 0 size (A ++ ⟨b.start, b.len + freeRun C, true⟩ :: afterRun C) := by
    rw [tiles_middle]
    refine ⟨hA, by simp; omega, ?_⟩
    have := tiles_afterRun hC
    simpa only [Seg.stop, Nat.add_assoc] using this
  refine ⟨s'.setPrev (headStart (afterRun C) none) b.start, ?_,
    hcfg.trans (setPrev_sameConfig _ _ _), htiles', tableRep_setPrev htiles' hgap,
    hidx.setPrev _ _⟩
  simp [mergeRight, hblk, debugAssert, hrun]

/-- A run of free blocks in front is skipped whole. -/
theorem afterRun_append {F C : List Block} (hF : ∀ x ∈ F, x.tag = true) :
    afterRun (F ++ C) = afterRun C := by
  induction F with
  | nil => rfl
  | cons f F ih =>
    simp only [List.cons_append, afterRun, hF f List.mem_cons_self, if_true]
    exact ih fun x hx => hF x (List.mem_cons_of_mem f hx)

/-- Used blocks survive a run of free ones. -/
theorem mem_afterRun_of_used {C : List Block} {c : Block} (hc : c.tag = false) :
    c ∈ afterRun C ↔ c ∈ C := by
  induction C with
  | nil => rfl
  | cons d C ih =>
    by_cases hd : d.tag = true
    · have hne : c ≠ d := by
        rintro rfl
        simp [hc] at hd
      simp [afterRun, hd, ih, hne]
    · simp [afterRun, hd]

/-- The walk to the left stops at the first block of the free run ending in `b`. -/
theorem walkLeft_spec {s : TlsfAllocator} {size : Nat} {A : List Block} {b : Block}
    {C : List Block} (fuel : Nat) (hfuel : A.length < fuel) (hb : b.tag = true)
    (h : s.Rep size (A ++ b :: C)) :
    ∃ A' f F, walkLeft fuel s b.start = some f.start ∧ A ++ [b] = A' ++ f :: F ∧
      (∀ x ∈ f :: F, x.tag = true) ∧ ∀ x ∈ A'.getLast?, x.tag = false := by
  induction A using List.reverseRecOn generalizing b C fuel with
  | nil =>
    obtain ⟨f, rfl⟩ : ∃ f, fuel = f + 1 := ⟨fuel - 1, by simp at hfuel; omega⟩
    refine ⟨[], b, [], ?_, rfl, by simpa using hb, by simp⟩
    have hblk := h.table b.start
    rw [links_middle h.tiles] at hblk
    simp [walkLeft, hblk, BlockMeta.ofLink]
  | append_singleton A p ih =>
    obtain ⟨f, rfl⟩ : ∃ f, fuel = f + 1 := ⟨fuel - 1, by simp at hfuel; omega⟩
    have hblk := h.table b.start
    rw [links_middle h.tiles] at hblk
    have hassoc : (A ++ [p]) ++ b :: C = A ++ p :: b :: C := by simp
    rw [hassoc] at h
    have hprev := h.table p.start
    rw [links_middle h.tiles] at hprev
    by_cases hp : p.tag = true
    · obtain ⟨A', g, F, hwalk, heq, hfree, hlast⟩ := ih f (by simp at hfuel; omega) hp h
      refine ⟨A', g, F ++ [b], ?_, by rw [heq]; simp, ?_, hlast⟩
      · simp [walkLeft, hblk, BlockMeta.ofLink, hprev, hp, hwalk]
      · intro x hx
        rw [← List.cons_append, List.mem_append, List.mem_singleton] at hx
        rcases hx with hx | rfl
        · exact hfree x hx
        · exact hb
    · refine ⟨A ++ [p], b, [], ?_, rfl, by simpa using hb, by simpa using hp⟩
      simp [walkLeft, hblk, BlockMeta.ofLink, hprev, hp]

/-- A free block in place of the free run around `b` has used neighbours. -/
theorem noAdjFree_merge {A A' C F : List Block} {b f g : Block} (heq : A ++ [b] = A' ++ f :: F)
    (hlast : ∀ x ∈ A'.getLast?, x.tag = false) (hA : NoAdjFree A)
    (hC : NoAdjFree C) : NoAdjFree (A' ++ g :: afterRun C) := by
  have hA' : NoAdjFree A' := by
    rcases List.append_eq_append_iff.mp heq with ⟨D, rfl, hD⟩ | ⟨D, rfl, hD⟩
    · cases D with
      | nil => simpa using hA
      | cons d D => simp at hD
    · exact (List.isChain_append.mp hA).1
  have hafter : NoAdjFree (afterRun C) ∧ ∀ y ∈ (afterRun C).head?, y.tag = false := by
    clear heq
    induction C with
    | nil => exact ⟨List.IsChain.nil, by simp [afterRun]⟩
    | cons c C ih =>
      by_cases hc : c.tag = true
      · simp only [afterRun, hc, if_true]
        exact ih (List.isChain_cons.mp hC).2
      · simp only [afterRun, hc]
        exact ⟨hC, by simpa using hc⟩
  refine List.isChain_append.mpr ⟨hA', List.isChain_cons.mpr ⟨?_, hafter.1⟩, ?_⟩
  · intro y hy
    simp [hafter.2 y hy]
  · intro x hx y _
    simp [hlast x hx]

/-- `merge_block` replaces the free run around `b` by one block, and leaves no
    two adjacent free blocks when there were none away from `b`. -/
theorem mergeBlock_spec {s : TlsfAllocator} {size : Nat} {A C : List Block} {b : Block}
    (h : s.Rep size (A ++ b :: C)) (hsize : size < wordSize) (hb : b.tag = true)
    (hA : NoAdjFree A) (hC : NoAdjFree C) :
    ∃ s' L, s.mergeBlock b.start = some s' ∧ SameConfig s s' ∧ s'.Rep size L ∧ NoAdjFree L ∧
      ∀ c : Block, c.tag = false → (c ∈ L ↔ c ∈ A ∨ c ∈ C) := by
  have hfuel := h.length_lt_fuel
  obtain ⟨A', f, F, hwalk, heq, hfree, hlast⟩ := walkLeft_spec s.fuel
    (by simp at hfuel; omega) hb h
  have hlist : A ++ b :: C = A' ++ f :: (F ++ C) := by
    have : A ++ b :: C = (A ++ [b]) ++ C := by simp
    rw [this, heq]
    simp
  have h' := h
  rw [hlist] at h'
  obtain ⟨s', hmerge, hcfg, hrep⟩ := mergeRight_spec h' hsize (hfree f List.mem_cons_self)
  rw [afterRun_append fun x hx => hfree x (List.mem_cons_of_mem f hx)] at hrep
  refine ⟨s', _, by simp [mergeBlock, hwalk, hmerge], hcfg, hrep, ?_, ?_⟩
  · exact noAdjFree_merge heq hlast hA hC
  · intro c hc
    have hne : c ≠ b := by
      rintro rfl
      simp [hc] at hb
    have hused : ∀ x ∈ f :: F, c ≠ x := by
      rintro x hx rfl
      have := hfree c hx
      rw [hc] at this
      cases this
    have hcA : c ∈ A ↔ c ∈ A' := by
      have : c ∈ A ++ [b] ↔ c ∈ A' ++ f :: F := by rw [heq]
      simp only [List.mem_append, List.mem_singleton, hne, or_false] at this
      rw [this]
      constructor
      · rintro (hc' | hc')
        · exact hc'
        · exact absurd rfl (hused c hc')
      · exact .inl
    have hcf : c ≠ ⟨f.start, f.len + freeRun (F ++ C), true⟩ := by
      rintro rfl
      simp at hc
    simp only [List.mem_append, List.mem_cons, hcf, false_or, mem_afterRun_of_used hc, hcA]

end TlsfAllocator

end Svod.MemoryPlanner.Tlsf
