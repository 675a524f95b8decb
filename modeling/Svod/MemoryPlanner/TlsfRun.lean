/-
  Svod.MemoryPlanner.TlsfRun

  The calls of the TLSF allocator and call sequences of any length.

  `WF s size L` is the full invariant: `s` represents the tiling `L` and no two
  adjacent blocks of `L` are free.  `alloc_spec` and `free_spec` say what one
  call does to `L`; `run_wf` carries the invariant, together with the
  correspondence between used blocks and live allocations, over a whole run.
  The one call that breaks it asks a zero-granule allocator for zero bytes.
-/

import Svod.MemoryPlanner.TlsfInv
import Svod.Lib.Fallible

namespace Svod.MemoryPlanner.Tlsf

open Svod.Lib Svod.Lib.Checked Svod.Lib.Tiling

variable {s : TlsfAllocator} {A C L : List Block} {b : Block} {size : Nat}
  {st : TlsfAllocator × List Live}

namespace TlsfAllocator

/-- The allocator invariant between calls. -/
structure WF (s : TlsfAllocator) (size : Nat) (L : List Block) : Prop where
  rep : s.Rep size L
  noAdjFree : NoAdjFree L
  l2Bits_pos : 1 ≤ s.l2Bits

/-! ## Marking a block used or free -/

/-- Rewriting the flag of `b` is rewriting the tag of its segment. -/
theorem tableRep_retag {lo hi : Nat} {t : Bool} (htiles : Tiles lo hi (A ++ b :: C))
    (h : s.TableRep (A ++ b :: C)) :
    (s.insertBlock b.start ⟨b.len, headStart C none, lastStart none A, t⟩).TableRep
      (A ++ { b with tag := t } :: C) := by
  intro a
  obtain ⟨hA, -, -⟩ := tiles_middle.mp htiles
  rw [insertBlock_blocks]
  by_cases hab : a = b.start
  · subst hab
    have h1 : links none (some b.start) A b.start = none := hA.links_eq_none_of_ge le_rfl
    simp [links_append, h1, links_cons, BlockMeta.ofLink]
  · have hne : b.start ≠ a := Ne.symm hab
    rw [Function.update_of_ne hab, h a]
    simp [links_append, links_cons, hne]

theorem tiles_retag {lo hi : Nat} {t : Bool} :
    Tiles lo hi (A ++ { b with tag := t } :: C) ↔ Tiles lo hi (A ++ b :: C) := by
  rw [tiles_middle, tiles_middle]
  rfl

/-- The used-marking end of `alloc`: the free block `b` leaves the index. -/
theorem markUsed_spec (h : s.Rep size (A ++ b :: C)) (hb : b.tag = true) :
    ∃ s1, s.removeBlockIndex b.start b.len = some s1 ∧
      s1.blocks b.start = some ⟨b.len, headStart C none, lastStart none A, true⟩ ∧
      SameConfig s s1 ∧
      (s1.insertBlock b.start ⟨b.len, headStart C none, lastStart none A, false⟩).Rep size
        (A ++ { b with tag := false } :: C) := by
  obtain ⟨htiles, htable, hindex⟩ := h
  obtain ⟨hA, hpos, hC⟩ := tiles_middle.mp htiles
  have hle := hC.le
  simp only [Seg.stop] at hC hle
  have hF : FreeIn (A ++ b :: C) b.start b.len := ⟨b, by simp, rfl, rfl, hb⟩
  obtain ⟨st, le, hrem, hidx⟩ := removeBlockIndex_spec _ _ hindex (lv1_lt_rows (by omega)) hF
    (fun z hz => hz.len_unique htiles hF)
  have hblk : s.blocks b.start = some ⟨b.len, headStart C none, lastStart none A, true⟩ := by
    rw [htable b.start, links_middle htiles, hb]
    rfl
  have htable1 : (s.withIndex st le).TableRep (A ++ b :: C) := htable
  refine ⟨s.withIndex st le, hrem, hblk, ⟨rfl, rfl, rfl, rfl⟩, tiles_retag.mpr htiles,
    tableRep_retag htiles htable1, ?_⟩
  refine (hidx.congr ?_).insertBlock _ _
  intro a z
  simp only [dropBlock, freeIn_append, freeIn_cons]
  constructor
  · rintro ⟨hz | ⟨rfl, -⟩ | hz, hne⟩
    · exact .inl hz
    · exact absurd rfl hne
    · exact .inr (.inr hz)
  · rintro (hz | ⟨-, -, hfalse⟩ | hz)
    · have := hz.bounds hA
      exact ⟨.inl hz, by omega⟩
    · cases hfalse
    · have := hz.bounds hC
      exact ⟨.inr (.inr hz), by omega⟩

/-- The free-marking start of `free`: the used block `b` enters the index. -/
theorem markFree_spec (h : s.Rep size (A ++ b :: C)) (hb : b.tag = false) :
    ∃ s1, (s.insertBlock b.start ⟨b.len, headStart C none, lastStart none A, true⟩
        ).insertBlockIndex b.start b.len = some s1 ∧ SameConfig s s1 ∧
      s1.Rep size (A ++ { b with tag := true } :: C) := by
  obtain ⟨htiles, htable, hindex⟩ := h
  obtain ⟨hA, hpos, hC⟩ := tiles_middle.mp htiles
  have hle := hC.le
  simp only [Seg.stop] at hC hle
  have hfresh : ∀ z, ¬ FreeIn (A ++ b :: C) b.start z := by
    rintro z ⟨c, hc, hcs, -, hct⟩
    have := htiles.start_inj hc (by simp) hcs
    rw [this, hb] at hct
    cases hct
  obtain ⟨st, le, hins, hidx⟩ := insertBlockIndex_spec _ b.start b.len
    (hindex.insertBlock b.start ⟨b.len, headStart C none, lastStart none A, true⟩)
    (lv1_lt_rows (by omega)) hfresh
  refine ⟨_, hins, ⟨rfl, rfl, rfl, rfl⟩, tiles_retag.mpr htiles, tableRep_retag htiles htable, ?_⟩
  refine hidx.congr ?_
  intro a z
  simp only [addBlock, freeIn_append, freeIn_cons, hb, and_true]
  constructor
  · rintro ((hz | ⟨-, -, hfalse⟩ | hz) | ⟨rfl, rfl⟩)
    · exact .inl hz
    · cases hfalse
    · exact .inr (.inr hz)
    · exact .inr (.inl ⟨rfl, rfl⟩)
  · rintro (hz | ⟨rfl, rfl⟩ | hz)
    · exact .inl (.inl hz)
    · exact .inr ⟨rfl, rfl⟩
    · exact .inl (.inr (.inr hz))

/-! ## Adjacency -/

theorem noAdjFree_of_length_le_one (h : L.length ≤ 1) : NoAdjFree L := by
  cases L with
  | nil => exact List.IsChain.nil
  | cons b rest =>
    have hnil : rest = [] := List.length_eq_zero_iff.mp (by simpa using h)
    rw [hnil]
    exact List.IsChain.singleton b

theorem noAdjFree_middle :
    NoAdjFree (A ++ b :: C) ↔ NoAdjFree A ∧ NoAdjFree C ∧
      (∀ x ∈ A.getLast?, ¬ (x.tag = true ∧ b.tag = true)) ∧
      (∀ y ∈ C.head?, ¬ (b.tag = true ∧ y.tag = true)) := by
  simp only [NoAdjFree, List.isChain_append, List.isChain_cons, List.head?_cons,
    Option.mem_some_iff, forall_eq']
  tauto

/-- Around a free block of the invariant the neighbours are used, so the block may
    be refined freely as long as free and used parts alternate. -/
theorem noAdjFree_refine {A C M : List Block} (h : NoAdjFree (A ++ b :: C)) (hb : b.tag = true)
    (hM : NoAdjFree M) : NoAdjFree (A ++ (M ++ C)) := by
  obtain ⟨hA, hC, hl, hr⟩ := noAdjFree_middle.mp h
  refine List.isChain_append.mpr ⟨hA, List.isChain_append.mpr ⟨hM, hC, ?_⟩, ?_⟩
  · intro x _ y hy hxy
    exact hr y hy ⟨hb, hxy.2⟩
  · intro x hx y _ hxy
    exact hl x hx ⟨hxy.1, hb⟩

/-! ## `alloc` -/

theorem roundUp_of_bound (start : Nat) {align n : Nat} (halign : 1 ≤ align) (hle : align ≤ n)
    (hword : start + n < wordSize) :
    ∃ m, roundUp start align = some m ∧ start ≤ m ∧ m < start + align ∧ align ∣ m := by
  unfold roundUp
  by_cases h1 : align ≤ 1
  · have : align = 1 := by omega
    subst this
    exact ⟨start, by simp, le_rfl, by omega, one_dvd _⟩
  · rw [if_neg h1]
    have hlt := ceilTo_lt (n := start) (show 0 < align by omega)
    exact ⟨ceilTo start align, divCeilMul_eq_some.mpr ⟨by omega, rfl⟩, le_ceilTo (by omega),
      hlt, dvd_ceilTo _ _⟩

/-- The alignment step splits `b` into a free head `H` and an aligned rest. -/
theorem splitHead_spec {size align : Nat} (h : s.Rep size (A ++ b :: C)) (hsize : size < wordSize)
    (hb : b.tag = true) (halign : 1 ≤ align) (hfit : align ≤ b.len) :
    ∃ s' H m len, s.splitHead b.start b.len align = some (s', m, len) ∧ SameConfig s s' ∧
      s'.Rep size ((A ++ H) ++ ⟨m, len, true⟩ :: C) ∧ (∀ x ∈ H, x.tag = true) ∧
      H.length ≤ 1 ∧ align ∣ m ∧ b.len < len + align := by
  obtain ⟨-, -, hC⟩ := tiles_middle.mp h.tiles
  have hstop := hC.le
  simp only [Seg.stop] at hstop
  obtain ⟨m, hm, hle, hlt, hdvd⟩ :=
    roundUp_of_bound b.start halign hfit (by omega)
  by_cases heq : m = b.start
  · subst heq
    obtain ⟨st, len, tag⟩ := b
    subst hb
    exact ⟨s, [], st, len, by simp [splitHead, hm], SameConfig.refl s, by simpa using h,
      by simp, by simp, hdvd, by simp only; omega⟩
  · obtain ⟨s', hsplit, hcfg, hrep⟩ := splitBlock_spec (n := m - b.start) h hsize hb
      (by omega) (by omega)
    rw [Nat.add_sub_cancel' hle] at hrep
    have hrep' : s'.Rep size ((A ++ [⟨b.start, m - b.start, true⟩]) ++
        ⟨m, b.len - (m - b.start), true⟩ :: C) := by simpa using hrep
    have hblk := hrep'.table m
    rw [links_middle (b := ⟨m, b.len - (m - b.start), true⟩) hrep'.tiles] at hblk
    refine ⟨s', _, m, _, ?_, hcfg, hrep', by simp, by simp, hdvd, by omega⟩
    simp [splitHead, hm, heq, checkedSub_of_le hle, hsplit, hblk, BlockMeta.ofLink]

/-- The size step splits a free tail `T` off the block. -/
theorem splitTail_spec (req : Nat) (h : s.Rep size (A ++ b :: C)) (hsize : size < wordSize)
    (hb : b.tag = true) (hreq : 0 < req) (hfit : req ≤ b.len) :
    ∃ s' T, s.splitTail b.start b.len req = some s' ∧ SameConfig s s' ∧
      s'.Rep size (A ++ ⟨b.start, req, true⟩ :: (T ++ C)) ∧ (∀ x ∈ T, x.tag = true) ∧
      T.length ≤ 1 := by
  by_cases hgt : b.len > req
  · obtain ⟨s', hsplit, hcfg, hrep⟩ := splitBlock_spec (n := req) h hsize hb hreq hgt
    exact ⟨s', [_], by simp [splitTail, hgt, hsplit], hcfg, hrep, by simp, by simp⟩
  · obtain ⟨st, len, tag⟩ := b
    simp only at hb hfit hgt
    have : len = req := by omega
    subst this hb
    exact ⟨s, [], by simp [splitTail], SameConfig.refl s, by simpa using h, by simp, by simp⟩

/-- The chosen block is cut into free head, used middle and free tail. -/
theorem takeBlock_spec {size want req align : Nat} (h : s.WF size (A ++ b :: C))
    (hsize : size < wordSize) (hb : b.tag = true) (hreq : 0 < req) (halign : 1 ≤ align)
    (hwant : req + align - 1 ≤ want) (hfit : want ≤ b.len) :
    ∃ s' H T m, s.takeBlock b.start want req align =
        (checkedAdd m s.base).map (fun off => (s', off)) ∧
      s'.base = s.base ∧ s'.blockSize = s.blockSize ∧ s'.l2Bits = s.l2Bits ∧
      s'.WF size (A ++ ((H ++ ⟨m, req, false⟩ :: T) ++ C)) ∧
      (∀ x ∈ H ++ T, x.tag = true) ∧ align ∣ m := by
  have hblk := h.rep.table b.start
  rw [links_middle h.rep.tiles] at hblk
  obtain ⟨s1, H, m, len, hhead, hcfg1, hrep1, hH, hH1, hdvd, hlen⟩ :=
    splitHead_spec h.rep hsize hb halign (by omega)
  obtain ⟨s2, T, htail, hcfg2, hrep2, hT, hT1⟩ :=
    splitTail_spec req hrep1 hsize rfl hreq (by simp only; omega)
  obtain ⟨s3, hrem, hblk3, hcfg3, hrep3⟩ := markUsed_spec hrep2 rfl
  simp only at htail hrem hblk3 hrep3
  have hcfg := (hcfg1.trans hcfg2).trans hcfg3
  have hlist : (A ++ H) ++ ⟨m, req, false⟩ :: (T ++ C) =
      A ++ ((H ++ ⟨m, req, false⟩ :: T) ++ C) := by simp
  have hend := (tiles_middle.mp hrep3.tiles).2.2.le
  simp only [Seg.stop] at hend
  set s4 := s3.insertBlock m ⟨req, headStart (T ++ C) none, lastStart none (A ++ H), false⟩
    with hs4
  refine ⟨{ s4 with peakUsed := max s4.peakUsed (m + req) }, H, T, m, ?_, hcfg.base,
    hcfg.blockSize, hcfg.l2Bits, ⟨?_, ?_, ?_⟩, ?_, hdvd⟩
  · simp only [takeBlock, hblk, Option.map_some, BlockMeta.ofLink, Option.bind_eq_bind,
      Option.bind_some, debugAssert, hfit, decide_true, if_true, hhead, htail, claimBlock, hrem,
      hblk3, ← hs4, show s4.base = s.base from hcfg.base,
      checkedAdd_of_lt (show m + req < wordSize by omega)]
    cases checkedAdd m s.base <;> rfl
  · rw [← hlist]
    exact ⟨hrep3.tiles, hrep3.table, hrep3.index.of_index_eq rfl rfl rfl⟩
  · -- head and tail have at most one block each and are separated by the used one
    refine noAdjFree_refine h.noAdjFree hb ?_
    exact noAdjFree_middle.mpr ⟨noAdjFree_of_length_le_one hH1, noAdjFree_of_length_le_one hT1,
      by simp, by simp⟩
  · rw [show s4.l2Bits = s.l2Bits from hcfg.l2Bits]
    exact h.l2Bits_pos
  · intro x hx
    rcases List.mem_append.mp hx with hx | hx
    · exact hH x hx
    · exact hT x hx

/-- The search size has room for the aligned request and sits on a bucket boundary. -/
theorem searchSize_spec {blockSize l2Bits req align want : Nat}
    (h : searchSize blockSize l2Bits req align = some want) (hl2 : 1 ≤ l2Bits) (hreq : 0 < req)
    (halign : 1 ≤ align) :
    req + align - 1 ≤ want ∧ 2 ^ (bitLength want - l2Bits) ∣ want := by
  simp only [searchSize, Option.bind_eq_bind, Option.bind_eq_some_iff, checkedAdd_eq_some] at h
  obtain ⟨_, ⟨-, rfl⟩, h⟩ := h
  set size := max (req + align - 1) blockSize with hsz
  have hle : req + align - 1 ≤ size := le_max_left _ _
  split at h
  · next hlt =>
    simp only [Option.bind_eq_some_iff, checkedAdd_eq_some, Option.some.injEq] at h
    obtain ⟨_, ⟨-, rfl⟩, rfl⟩ := h
    set k := bitLength size - l2Bits with hk
    have hceil := le_ceilTo (n := size) (Nat.two_pow_pos k)
    have hceil' : ceilTo size (2 ^ k) < size + 2 ^ k := ceilTo_lt (Nat.two_pow_pos k)
    change req + align - 1 ≤ ceilTo size (2 ^ k) ∧
      2 ^ (bitLength (ceilTo size (2 ^ k)) - l2Bits) ∣ ceilTo size (2 ^ k)
    refine ⟨le_trans hle hceil, ?_⟩
    -- rounding either keeps the bit length or reaches the next power of two
    have hspos : 0 < size := by omega
    have hb := lt_two_pow_bitLength size
    have hdvdk : 2 ^ k ∣ ceilTo size (2 ^ k) := dvd_ceilTo _ _
    have hcap : ceilTo size (2 ^ k) ≤ 2 ^ bitLength size := by
      have hdp : 2 ^ k ∣ 2 ^ bitLength size := Nat.pow_dvd_pow 2 (by omega)
      obtain ⟨q, hq⟩ := hdvdk
      obtain ⟨r, hr⟩ := hdp
      rw [hq] at hceil' ⊢
      rw [hr] at hb ⊢
      apply Nat.mul_le_mul_left
      by_contra hqr
      have : r + 1 ≤ q := by omega
      have := Nat.mul_le_mul_left (2 ^ k) this
      rw [Nat.mul_add, Nat.mul_one] at this
      omega
    rcases Nat.lt_or_eq_of_le hcap with hlt' | heq
    · have hlen : bitLength (ceilTo size (2 ^ k)) = bitLength size :=
        le_antisymm (bitLength_le_of_lt hlt') (bitLength_mono hceil)
      rw [hlen]
      exact hdvdk
    · rw [heq]
      apply Nat.pow_dvd_pow
      have : bitLength (2 ^ bitLength size) ≤ bitLength size + 1 :=
        bitLength_le_of_lt (Nat.pow_lt_pow_right (by decide) (by omega))
      omega
  · simp only [Option.some.injEq] at h
    subst h
    refine ⟨hle, ?_⟩
    have : bitLength size - l2Bits = 0 := by omega
    simp [this]

/-- What one successful `alloc` does to the tiling: the block `⟨m, n, used⟩` appears, every
    other used block stays, and `m` was the start of no used block. -/
structure Allocated (L L' : List Block) (m n : Nat) : Prop where
  used_iff : ∀ c : Block, c.tag = false → (c ∈ L' ↔ c ∈ L ∨ c = ⟨m, n, false⟩)
  fresh : ∀ c ∈ L, c.tag = false → c.start ≠ m

/-- `alloc` on a well-formed allocator, once the size computation fits a word: it reports
    exhaustion and changes nothing, or it carves one used block out of a free one. -/
theorem alloc_spec {size req want : Nat} (align : Nat) (h : s.WF size L) (hsize : size < wordSize)
    (hreq : 0 < max req s.blockSize)
    (hwant : searchSize s.blockSize s.l2Bits (max req s.blockSize) (max align 1) = some want) :
    s.alloc req align = some (s, .error (.outOfMemory (max req s.blockSize))) ∨
    ∃ s' L' m, s.alloc req align = (checkedAdd m s.base).map (fun off => (s', .ok off)) ∧
      s'.base = s.base ∧ s'.blockSize = s.blockSize ∧ s'.l2Bits = s.l2Bits ∧ s'.WF size L' ∧
      Allocated L L' m (max req s.blockSize) ∧ max align 1 ∣ m := by
  obtain ⟨hroom, hbucket⟩ := searchSize_spec hwant h.l2Bits_pos hreq (le_max_right _ _)
  cases hfind : s.findBlock (lv1 want) (lv2 s.l2Bits want) with
  | none => exact .inl (by simp [alloc, hwant, hfind])
  | some start =>
    right
    -- the block found is free and at least as large as the search size
    obtain ⟨z, hz, hge⟩ := findBlock_some h.rep.index hfind
    have hzpos := (hz.bounds h.rep.tiles).2.1
    have hfit : want ≤ z := le_of_bucket_le h.l2Bits_pos hbucket hzpos hge
    obtain ⟨b, hbL, rfl, rfl, hb⟩ := hz
    obtain ⟨A, C, rfl⟩ := List.append_of_mem hbL
    obtain ⟨s', H, T, m, htake, hba, hbs, hl2, hwf, hfree, hdvd⟩ :=
      takeBlock_spec h hsize hb hreq (le_max_right _ _) hroom hfit
    refine ⟨s', _, m, ?_, hba, hbs, hl2, hwf, ⟨?_, ?_⟩, hdvd⟩
    · simp only [alloc, Option.bind_eq_bind, hwant, Option.bind_some, hfind, htake]
      cases checkedAdd m s.base <;> rfl
    · intro c hc
      have hHT : c ∉ H ++ T := fun hmem => by simp [hfree c hmem] at hc
      have hcb : c ≠ b := by
        rintro rfl
        simp [hb] at hc
      simp only [List.mem_append, not_or] at hHT
      simp only [List.mem_append, List.mem_cons, hHT.1, hHT.2, hcb, false_or, or_false]
      tauto
    · intro c hcL hc
      have htiles := hwf.rep.tiles
      rw [show A ++ ((H ++ ⟨m, max req s.blockSize, false⟩ :: T) ++ C) =
        (A ++ H) ++ ⟨m, max req s.blockSize, false⟩ :: (T ++ C) by simp, tiles_middle] at htiles
      obtain ⟨hAH, -, hTC⟩ := htiles
      rw [List.mem_append, List.mem_cons] at hcL
      rcases hcL with hcA | rfl | hcC
      · have := hAH.mem_bounds (List.mem_append_left H hcA)
        simp only [Seg.stop] at this
        omega
      · simp [hb] at hc
      · have := hTC.mem_bounds (List.mem_append_right T hcC)
        simp only [Seg.stop] at this
        omega

/-- An `alloc` that reports an error leaves the allocator as it was. -/
theorem alloc_error {s s' : TlsfAllocator} {req align : Nat} {e : TlsfError}
    (h : s.alloc req align = some (s', .error e)) : s' = s := by
  simp only [alloc, Option.bind_eq_bind, Option.bind_eq_some_iff] at h
  obtain ⟨want, -, h⟩ := h
  split at h
  · simp only [Option.some.injEq, Prod.mk.injEq] at h
    exact h.1.symm
  · simp only [Option.bind_eq_some_iff] at h
    obtain ⟨p, -, h⟩ := h
    simp at h

/-! ## `free` -/

/-- `free` on a well-formed allocator: an offset that starts no block or a free block is
    reported and changes nothing, a used block is returned to the arena. -/
theorem free_spec (offset : Nat) (h : s.WF size L) (hsize : size < wordSize) :
    s.free offset = some (s, .error (.unknownOffset offset)) ∨
    s.free offset = some (s, .error (.doubleFree offset)) ∨
    ∃ s' L', s.free offset = some (s', .ok ()) ∧ s'.base = s.base ∧
      s'.blockSize = s.blockSize ∧ s'.l2Bits = s.l2Bits ∧ s'.WF size L' ∧ s.base ≤ offset ∧
      (∃ c ∈ L, c.tag = false ∧ c.start + s.base = offset) ∧
      ∀ c : Block, c.tag = false → (c ∈ L' ↔ c ∈ L ∧ c.start + s.base ≠ offset) := by
  by_cases hlt : offset < s.base
  · exact .inl (by simp [free, hlt])
  cases hblk : s.blocks (offset - s.base) with
  | none => exact .inl (by simp [free, hlt, hblk])
  | some blk =>
    right
    have htab := h.rep.table (offset - s.base)
    rw [hblk, eq_comm, Option.map_eq_some_iff] at htab
    obtain ⟨l, hl, hlb⟩ := htab
    obtain ⟨A, b, C, rfl, hstart, -⟩ := exists_of_links hl
    rw [← hstart, links_middle h.rep.tiles, Option.some.injEq] at hl
    subst hl
    subst hlb
    by_cases hb : b.tag = true
    · exact .inl (by simp [free, hlt, hblk, BlockMeta.ofLink, hb])
    right
    rw [Bool.not_eq_true] at hb
    obtain ⟨s1, hins, hcfg1, hrep1⟩ := markFree_spec h.rep hb
    obtain ⟨hA, hC, -, -⟩ := noAdjFree_middle.mp h.noAdjFree
    obtain ⟨s2, L', hmerge, hcfg2, hrep2, hadj, hused⟩ :=
      mergeBlock_spec hrep1 hsize rfl hA hC
    have hcfg := hcfg1.trans hcfg2
    simp only at hmerge
    have hl2 := h.l2Bits_pos
    rw [← hcfg.l2Bits] at hl2
    refine ⟨s2, L', ?_, hcfg.base, hcfg.blockSize, hcfg.l2Bits, ⟨hrep2, hadj, hl2⟩,
      by omega, ⟨b, by simp, hb, by omega⟩, ?_⟩
    · rw [← hstart] at hblk
      simp only [free, hlt, if_false, ← hstart, hblk, BlockMeta.ofLink, hb, Bool.false_eq_true,
        hins, Option.bind_eq_bind, Option.bind_some, hmerge]
    · intro c hc
      rw [hused c hc]
      constructor
      · intro hmem
        have hmem' : c ∈ A ++ b :: C := by
          rw [List.mem_append, List.mem_cons]
          tauto
        refine ⟨hmem', fun heq => ?_⟩
        obtain ⟨hA', hpos, hC'⟩ := tiles_middle.mp h.rep.tiles
        rcases hmem with hmem | hmem
        · have := hA'.mem_bounds hmem
          simp only [Seg.stop] at this
          omega
        · have := hC'.mem_bounds hmem
          simp only [Seg.stop] at this
          omega
      · rintro ⟨hmem, hne⟩
        rw [List.mem_append, List.mem_cons] at hmem
        rcases hmem with hmem | rfl | hmem
        · exact .inl hmem
        · exact absurd (by omega) hne
        · exact .inr hmem

/-- A `free` that reports an error leaves the allocator as it was. -/
theorem free_error {s s' : TlsfAllocator} {offset : Nat} {e : TlsfError}
    (h : s.free offset = some (s', .error e)) : s' = s := by
  unfold free at h
  split at h
  · simp only [Option.some.injEq, Prod.mk.injEq] at h
    exact h.1.symm
  · dsimp only at h
    split at h
    · simp only [Option.some.injEq, Prod.mk.injEq] at h
      exact h.1.symm
    · split at h
      · simp only [Option.some.injEq, Prod.mk.injEq] at h
        exact h.1.symm
      · simp only [bind_eq_some, Option.some.injEq,
          Prod.mk.injEq, reduceCtorEq, and_false, exists_false] at h

/-! ## The initial allocator -/

/-- `new` represents the arena as one free block, or as none when it is empty. -/
theorem new_wf (size base blockSize lv2Cnt : Nat) :
    ∃ s L, new size base blockSize lv2Cnt = some s ∧ s.WF size L ∧ s.base = base ∧
      s.blockSize = blockSize ∧ ∀ c ∈ L, c.tag = true := by
  set l2 := bitLength (max lv2Cnt 1) with hl2
  have hl2pos : 1 ≤ l2 := bitLength_pos (by omega)
  set e : TlsfAllocator :=
    { base, blockSize, l2Bits := l2
      storage := List.replicate (bitLength size + 1) (List.replicate (2 ^ l2) [])
      lv1Entries := List.replicate (bitLength size + 1) 0
      blocks := fun _ => none
      peakUsed := 0 } with he
  have hbucket : ∀ l1 l2, e.bucket l1 l2 = [] := by
    intro k1 k2
    simp only [bucket, he, List.getD_eq_getElem?_getD, List.getElem?_replicate]
    split
    · simp only [Option.getD_some, List.getElem?_replicate]
      split <;> rfl
    · rfl
  have hempty : e.IndexRep (bitLength size + 1) (fun _ _ => False) := by
    refine ⟨by simp [he], ?_, by simp [he], ?_, ?_, ?_⟩
    · intro row hrow
      rw [List.eq_of_mem_replicate hrow, List.length_replicate]
    · intro k1 k2
      simp [hbucket]
    · intro k1 k2 a
      simp [hbucket]
    · intro k1
      simp only [he, List.getD_eq_getElem?_getD, List.getElem?_replicate]
      split <;> simp
  by_cases hpos : 0 < size
  · obtain ⟨st, le, hins, hidx⟩ := insertBlockIndex_spec _ 0 size
      (hempty.insertBlock 0 ⟨size, none, none, true⟩) (lv1_lt_rows le_rfl) (fun _ h => h)
    refine ⟨_, [⟨0, size, true⟩], by simp only [new, hpos, if_true, ← hl2]; exact hins,
      ⟨⟨⟨rfl, hpos, by simp [Seg.stop]⟩, ?_, ?_⟩, List.IsChain.singleton _, hl2pos⟩, rfl, rfl,
      by simp⟩
    · intro a
      by_cases ha : a = 0
      · subst ha
        simp [links, BlockMeta.ofLink]
      · have ha' : ¬ 0 = a := Ne.symm ha
        rw [withIndex_blocks, insertBlock_blocks, Function.update_of_ne ha]
        simp [links, ha', he]
    · refine hidx.congr ?_
      intro a z
      simp only [addBlock, false_or, freeIn_cons, and_true, freeIn_nil, or_false]
      constructor <;> rintro ⟨h1, h2⟩ <;> exact ⟨h1.symm, h2.symm⟩
  · have h0 : size = 0 := by omega
    refine ⟨e, [], by simp only [new, hpos, if_false, ← hl2]; rfl,
      ⟨⟨h0.symm, fun _ => rfl, ?_⟩, List.IsChain.nil, hl2pos⟩, rfl, rfl, by simp⟩
    exact hempty.congr fun a z => by simp

/-! ## The invariant, read off the state -/

/-- The allocator invariant in terms of the fields of the state alone. -/
structure Invariant (s : TlsfAllocator) (size : Nat) : Prop where
  /-- The blocks of the table tile `[0, size)`. -/
  tiling : ∃ L : List Block, Tiles 0 size L ∧ ∀ b : Block, b ∈ L ↔
    ∃ m, s.blocks b.start = some m ∧ m.size = b.len ∧ m.isFree = b.tag
  /-- A `next` link leads to the adjacent block, whose `prev` link leads back. -/
  next_prev : ∀ a m n, s.blocks a = some m → m.next = some n →
    n = a + m.size ∧ ∃ m', s.blocks n = some m' ∧ m'.prev = some a
  /-- A `prev` link leads to a block whose `next` link leads back. -/
  prev_next : ∀ a m p, s.blocks a = some m → m.prev = some p →
    ∃ m', s.blocks p = some m' ∧ m'.next = some a
  /-- The outer ends of the list are the ends of the arena. -/
  next_none : ∀ a m, s.blocks a = some m → m.next = none → a + m.size = size
  prev_none : ∀ a m, s.blocks a = some m → m.prev = none → a = 0
  /-- No two adjacent blocks are both free. -/
  no_adjacent_free : ∀ a m n m', s.blocks a = some m → m.next = some n →
    s.blocks n = some m' → ¬ (m.isFree = true ∧ m'.isFree = true)
  /-- A free block is listed once, in the bucket of its size; nothing else is listed. -/
  listed : ∀ l1 l2 a, (s.bucket l1 l2).Nodup ∧ (a ∈ s.bucket l1 l2 ↔
    ∃ m, s.blocks a = some m ∧ m.isFree = true ∧ lv1 m.size = l1 ∧ lv2 s.l2Bits m.size = l2)
  /-- Row counters are row populations. -/
  counters : s.lv1Entries.length = s.storage.length ∧
    ∀ l1, s.lv1Entries.getD l1 0 = ((s.storage.getD l1 []).map List.length).sum

theorem headStart_eq_some {n : Nat} (h : headStart C none = some n) :
    ∃ c C', C = c :: C' ∧ c.start = n := by
  cases C with
  | nil => cases h
  | cons c C => exact ⟨c, C, rfl, Option.some.inj h⟩

theorem lastStart_eq_some {p : Nat} (h : lastStart none A = some p) :
    ∃ A' b, A = A' ++ [b] ∧ b.start = p := by
  cases A using List.reverseRecOn with
  | nil => cases h
  | append_singleton A b => exact ⟨A, b, rfl, by simpa using h⟩

/-- A table entry is the linked view of one block of the tiling. -/
theorem Rep.exists_block (h : s.Rep size L) {a : Nat} {m : BlockMeta} (hm : s.blocks a = some m) :
    ∃ A b C, L = A ++ b :: C ∧ b.start = a ∧
      m = ⟨b.len, headStart C none, lastStart none A, b.tag⟩ := by
  have htab := h.table a
  rw [hm, eq_comm, Option.map_eq_some_iff] at htab
  obtain ⟨l, hl, rfl⟩ := htab
  obtain ⟨A, b, C, rfl, rfl, -⟩ := exists_of_links hl
  rw [links_middle h.tiles, Option.some.injEq] at hl
  subst hl
  exact ⟨A, b, C, rfl, rfl, rfl⟩

/-- The entry of a block of the tiling. -/
theorem Rep.blocks_eq (h : s.Rep size (A ++ b :: C)) :
    s.blocks b.start = some ⟨b.len, headStart C none, lastStart none A, b.tag⟩ := by
  rw [h.table b.start, links_middle h.tiles]
  rfl

theorem WF.invariant (h : s.WF size L) : s.Invariant size := by
  obtain ⟨hrep, hadj, -⟩ := h
  refine ⟨⟨L, hrep.tiles, ?_⟩, ?_, ?_, ?_, ?_, ?_, ?_, ?_⟩
  · intro b
    constructor
    · intro hb
      obtain ⟨A, C, rfl⟩ := List.append_of_mem hb
      exact ⟨_, hrep.blocks_eq, rfl, rfl⟩
    · rintro ⟨m, hm, hlen, htag⟩
      obtain ⟨A, c, C, rfl, hcs, rfl⟩ := hrep.exists_block hm
      have : b = c := by
        cases b
        cases c
        simp_all
      simp [this]
  · intro a m n hm hn
    obtain ⟨A, b, C, rfl, rfl, rfl⟩ := hrep.exists_block hm
    obtain ⟨c, C', rfl, rfl⟩ := headStart_eq_some hn
    have hassoc : A ++ b :: c :: C' = (A ++ [b]) ++ c :: C' := by simp
    refine ⟨(tiles_middle.mp hrep.tiles).2.2.1, ?_⟩
    rw [hassoc] at hrep
    exact ⟨_, hrep.blocks_eq, by simp⟩
  · intro a m p hm hp
    obtain ⟨A, b, C, rfl, rfl, rfl⟩ := hrep.exists_block hm
    obtain ⟨A', c, rfl, rfl⟩ := lastStart_eq_some hp
    have hassoc : (A' ++ [c]) ++ b :: C = A' ++ c :: b :: C := by simp
    rw [hassoc] at hrep
    exact ⟨_, hrep.blocks_eq, rfl⟩
  · intro a m hm hn
    obtain ⟨A, b, C, rfl, rfl, rfl⟩ := hrep.exists_block hm
    cases C with
    | nil => exact (tiles_middle.mp hrep.tiles).2.2
    | cons c C => cases hn
  · intro a m hm hp
    obtain ⟨A, b, C, rfl, rfl, rfl⟩ := hrep.exists_block hm
    cases A using List.reverseRecOn with
    | nil => exact (tiles_middle.mp hrep.tiles).1.symm
    | append_singleton A c => simp at hp
  · intro a m n m' hm hn hm'
    obtain ⟨A, b, C, rfl, rfl, rfl⟩ := hrep.exists_block hm
    obtain ⟨c, C', rfl, rfl⟩ := headStart_eq_some hn
    have hbc := (noAdjFree_middle.mp hadj).2.2.2 c rfl
    have hassoc : A ++ b :: c :: C' = (A ++ [b]) ++ c :: C' := by simp
    rw [hassoc] at hrep
    rw [hrep.blocks_eq, Option.some.injEq] at hm'
    subst hm'
    exact hbc
  · intro l1 l2 a
    refine ⟨hrep.index.nodup l1 l2, ?_⟩
    rw [hrep.index.mem]
    constructor
    · rintro ⟨z, ⟨b, hb, rfl, rfl, hfree⟩, h1, h2⟩
      obtain ⟨A, C, rfl⟩ := List.append_of_mem hb
      exact ⟨_, hrep.blocks_eq, hfree, h1, h2⟩
    · rintro ⟨m, hm, hfree, h1, h2⟩
      obtain ⟨A, b, C, rfl, rfl, rfl⟩ := hrep.exists_block hm
      exact ⟨b.len, ⟨b, by simp, rfl, rfl, hfree⟩, h1, h2⟩
  · exact ⟨by rw [hrep.index.entries_len, hrep.index.storage_len], hrep.index.count⟩

end TlsfAllocator

/-! ## Runs -/

open TlsfAllocator

/-- A call that does not ask for a block of zero bytes. -/
def Call.NonEmpty (blockSize : Nat) : Call → Prop
  | .alloc req _ => 0 < max req blockSize
  | .free _ => True

/-- A call whose size computation does not overflow a word. -/
def Call.Fits (blockSize l2Bits : Nat) : Call → Prop
  | .alloc req align => (searchSize blockSize l2Bits (max req blockSize) (max align 1)).isSome
  | .free _ => True

/-- The used blocks of `L` are exactly the live allocations. -/
structure LiveRep (s : TlsfAllocator) (L : List Block) (live : List Live) : Prop where
  offsets_nodup : (live.map Live.offset).Nodup
  block : ∀ l ∈ live, ∃ c ∈ L, c.tag = false ∧ c.start + s.base = l.offset ∧
    c.len = max l.req s.blockSize
  used : ∀ c ∈ L, c.tag = false → ∃ l ∈ live, c.start + s.base = l.offset

/-- The state between calls of a run. -/
structure RunInv (size : Nat) (st : TlsfAllocator × List Live) (L : List Block) : Prop where
  wf : st.1.WF size L
  live : LiveRep st.1 L st.2

/-- One call keeps the invariant. -/
theorem step_inv {st st' : TlsfAllocator × List Live} {c : Call} (h : RunInv size st L)
    (hsize : size < wordSize) (hc : c.NonEmpty st.1.blockSize) (hstep : step st c = some st') :
    (∃ L', RunInv size st' L') ∧ st'.1.base = st.1.base ∧
      st'.1.blockSize = st.1.blockSize ∧ st'.1.l2Bits = st.1.l2Bits := by
  obtain ⟨s, live⟩ := st
  obtain ⟨hwf, hnd, hblock, hused⟩ := h
  cases c with
  | alloc req align =>
    simp only [step, bind_eq_some] at hstep
    obtain ⟨⟨s', r⟩, halloc, hstep⟩ := hstep
    cases hwant : searchSize s.blockSize s.l2Bits (max req s.blockSize) (max align 1) with
    | none => simp [alloc, hwant] at halloc
    | some want =>
      rcases alloc_spec align hwf hsize hc hwant with
        herr | ⟨s'', L', m, hok, hba, hbs, hl2, hwf', ⟨hiff, hfresh⟩, -⟩
      · rw [herr, Option.some.injEq, Prod.mk.injEq] at halloc
        obtain ⟨rfl, rfl⟩ := halloc
        simp only [Option.some.injEq] at hstep
        subst hstep
        exact ⟨⟨L, hwf, hnd, hblock, hused⟩, rfl, rfl, rfl⟩
      · rw [hok, Option.map_eq_some_iff] at halloc
        obtain ⟨off, hoff, heq⟩ := halloc
        rw [Prod.mk.injEq] at heq
        obtain ⟨rfl, rfl⟩ := heq
        simp only [Option.some.injEq] at hstep
        subst hstep
        obtain ⟨-, rfl⟩ := checkedAdd_eq_some.mp hoff
        refine ⟨⟨L', hwf', ⟨?_, ?_, ?_⟩⟩, hba, hbs, hl2⟩
        · -- the new offset was the start of no used block
          rw [List.map_cons, List.nodup_cons]
          refine ⟨?_, hnd⟩
          rw [List.mem_map]
          rintro ⟨l, hl, heq⟩
          obtain ⟨c, hcL, hcu, hcs, -⟩ := hblock l hl
          exact hfresh c hcL hcu (by simp only at heq hcs; omega)
        · intro l hl
          rw [List.mem_cons] at hl
          simp only [hba, hbs]
          rcases hl with rfl | hl
          · exact ⟨⟨m, _, false⟩, (hiff _ rfl).mpr (.inr rfl), rfl, rfl, rfl⟩
          · obtain ⟨c, hcL, hcu, hcs, hcl⟩ := hblock l hl
            exact ⟨c, (hiff c hcu).mpr (.inl hcL), hcu, hcs, hcl⟩
        · intro c hcL hcu
          simp only [hba]
          rcases (hiff c hcu).mp hcL with hcL | rfl
          · obtain ⟨l, hl, hls⟩ := hused c hcL hcu
            exact ⟨l, List.mem_cons_of_mem _ hl, hls⟩
          · exact ⟨_, List.mem_cons_self, rfl⟩
  | free offset =>
    simp only [step, bind_eq_some] at hstep
    obtain ⟨⟨s', r⟩, hfree, hstep⟩ := hstep
    rcases free_spec offset hwf hsize with
      herr | herr | ⟨s'', L', hok, hba, hbs, hl2, hwf', -, -, hiff⟩
    · rw [herr, Option.some.injEq, Prod.mk.injEq] at hfree
      obtain ⟨rfl, rfl⟩ := hfree
      simp only [Option.some.injEq] at hstep
      subst hstep
      exact ⟨⟨L, hwf, hnd, hblock, hused⟩, rfl, rfl, rfl⟩
    · rw [herr, Option.some.injEq, Prod.mk.injEq] at hfree
      obtain ⟨rfl, rfl⟩ := hfree
      simp only [Option.some.injEq] at hstep
      subst hstep
      exact ⟨⟨L, hwf, hnd, hblock, hused⟩, rfl, rfl, rfl⟩
    · rw [hok, Option.some.injEq, Prod.mk.injEq] at hfree
      obtain ⟨rfl, rfl⟩ := hfree
      simp only [Option.some.injEq] at hstep
      subst hstep
      refine ⟨⟨L', hwf', ⟨?_, ?_, ?_⟩⟩, hba, hbs, hl2⟩
      · exact hnd.sublist (List.filter_sublist.map _)
      · intro l hl
        simp only [List.mem_filter, decide_eq_true_eq] at hl
        obtain ⟨c, hcL, hcu, hcs, hcl⟩ := hblock l hl.1
        simp only [hba, hbs]
        exact ⟨c, (hiff c hcu).mpr ⟨hcL, by rw [hcs]; exact hl.2⟩, hcu, hcs, hcl⟩
      · intro c hcL hcu
        obtain ⟨hcL', hne⟩ := (hiff c hcu).mp hcL
        obtain ⟨l, hl, hls⟩ := hused c hcL' hcu
        simp only [hba]
        exact ⟨l, by simp [hl, ← hls, hne], hls⟩

/-- A call goes through once its size computation fits a word. -/
theorem step_isSome {c : Call} (h : RunInv size st L) (hsize : size < wordSize)
    (hbase : st.1.base + size < wordSize) (hc : c.NonEmpty st.1.blockSize)
    (hfits : c.Fits st.1.blockSize st.1.l2Bits) : (step st c).isSome := by
  obtain ⟨s, live⟩ := st
  obtain ⟨hwf, -⟩ := h
  cases c with
  | alloc req align =>
    obtain ⟨want, hwant⟩ := Option.isSome_iff_exists.mp hfits
    rcases alloc_spec _ hwf hsize hc hwant with herr | ⟨s', L', m, hok, -, -, -, hwf', hal, -⟩
    · simp [step, herr]
    · have hm : (⟨m, max req s.blockSize, false⟩ : Block) ∈ L' :=
        (hal.used_iff _ rfl).mpr (.inr rfl)
      have hbound := (hwf'.rep.tiles.mem_bounds hm).2.2
      simp only [Seg.stop] at hbound hbase
      simp [step, hok, checkedAdd_of_lt (show m + s.base < wordSize by omega)]
  | free offset =>
    rcases free_spec offset hwf hsize with herr | herr | ⟨s', L', hok, -⟩
    · simp [step, herr]
    · simp [step, herr]
    · simp [step, hok]

/-- A run keeps the invariant. -/
theorem run_inv (hsize : size < wordSize) {calls : List Call} {st st' : TlsfAllocator × List Live}
    (h : RunInv size st L) (hcalls : ∀ c ∈ calls, c.NonEmpty st.1.blockSize)
    (hrun : run st calls = some st') :
    (∃ L', RunInv size st' L') ∧ st'.1.base = st.1.base ∧
      st'.1.blockSize = st.1.blockSize ∧ st'.1.l2Bits = st.1.l2Bits := by
  induction calls generalizing st L with
  | nil =>
    simp only [run, List.foldlM_nil, Option.pure_def, Option.some.injEq] at hrun
    subst hrun
    exact ⟨⟨L, h⟩, rfl, rfl, rfl⟩
  | cons c calls ih =>
    simp only [run, List.foldlM_cons, bind_eq_some] at hrun
    obtain ⟨st1, hstep, hrun⟩ := hrun
    obtain ⟨⟨L1, h1⟩, hba, hbs, hl2⟩ := step_inv h hsize (hcalls c List.mem_cons_self) hstep
    obtain ⟨hinv, hba', hbs', hl2'⟩ := ih h1
      (fun d hd => by rw [hbs]; exact hcalls d (List.mem_cons_of_mem c hd)) hrun
    exact ⟨hinv, hba'.trans hba, hbs'.trans hbs, hl2'.trans hl2⟩

/-- A run goes through once the size computation of every call fits a word. -/
theorem run_isSome (hsize : size < wordSize) {calls : List Call} (h : RunInv size st L)
    (hbase : st.1.base + size < wordSize) (hcalls : ∀ c ∈ calls, c.NonEmpty st.1.blockSize)
    (hfits : ∀ c ∈ calls, c.Fits st.1.blockSize st.1.l2Bits) : (run st calls).isSome := by
  induction calls generalizing st L with
  | nil => rfl
  | cons c calls ih =>
    have hstep := step_isSome h hsize hbase (hcalls c List.mem_cons_self)
      (hfits c List.mem_cons_self)
    obtain ⟨st1, hst1⟩ := Option.isSome_iff_exists.mp hstep
    obtain ⟨⟨L1, h1⟩, hba, hbs, hl2⟩ := step_inv h hsize (hcalls c List.mem_cons_self) hst1
    have := ih h1 (by rw [hba]; exact hbase)
      (fun d hd => by rw [hbs]; exact hcalls d (List.mem_cons_of_mem c hd))
      (fun d hd => by rw [hbs, hl2]; exact hfits d (List.mem_cons_of_mem c hd))
    simpa [run, List.foldlM_cons, hst1] using this

/-- What a client relies on: its allocations are used blocks of the arena, hold what was asked
    for, and are pairwise disjoint. -/
structure ClientView (s : TlsfAllocator) (size : Nat) (live : List Live) : Prop where
  holds : ∀ l ∈ live, ∃ m, s.base ≤ l.offset ∧ s.blocks (l.offset - s.base) = some m ∧
    m.isFree = false ∧ l.req ≤ m.size ∧ l.offset + m.size ≤ s.base + size
  disjoint : live.Pairwise fun l l' =>
    l.offset + l.req ≤ l'.offset ∨ l'.offset + l'.req ≤ l.offset

theorem RunInv.clientView (h : RunInv size st L) : ClientView st.1 size st.2 := by
  obtain ⟨hwf, hnd, hblock, -⟩ := h
  refine ⟨?_, ?_⟩
  · intro l hl
    obtain ⟨c, hcL, hcu, hcs, hcl⟩ := hblock l hl
    obtain ⟨A, C, rfl⟩ := List.append_of_mem hcL
    have hbound := (hwf.rep.tiles.mem_bounds hcL).2.2
    simp only [Seg.stop] at hbound
    have hstart : l.offset - st.1.base = c.start := by omega
    have hblk := hwf.rep.blocks_eq
    rw [← hstart] at hblk
    have hreq := le_max_left l.req st.1.blockSize
    exact ⟨_, by omega, hblk, hcu, by simp only; omega, by simp only; omega⟩
  · rw [List.Nodup, List.pairwise_map] at hnd
    refine hnd.imp_of_mem ?_
    intro l l' hl hl' hne
    obtain ⟨c, hcL, -, hcs, hcl⟩ := hblock l hl
    obtain ⟨d, hdL, -, hds, hdl⟩ := hblock l' hl'
    have hreq := le_max_left l.req st.1.blockSize
    have hreq' := le_max_left l'.req st.1.blockSize
    rcases hwf.rep.tiles.eq_or_disjoint hcL hdL with rfl | hdis | hdis
    · exact absurd (hcs.symm.trans hds) hne
    · simp only [Seg.stop] at hdis
      exact .inl (by omega)
    · simp only [Seg.stop] at hdis
      exact .inr (by omega)

/-- Over every run from `new` whose allocations are not of zero bytes: the allocator invariant
    and the client's view hold in the state reached, calls that report an error change nothing,
    and the run does not abort when its sizes and the arena's addresses fit a word. -/
theorem run_invariant (size base blockSize lv2Cnt : Nat) (calls : List Call)
    (hsize : size < wordSize) (hcalls : ∀ c ∈ calls, c.NonEmpty blockSize) :
    ∃ s₀, new size base blockSize lv2Cnt = some s₀ ∧
      (∀ s live, run (s₀, []) calls = some (s, live) →
        s.Invariant size ∧ ClientView s size live ∧
        (∀ req align s' e, s.alloc req align = some (s', .error e) → s' = s) ∧
        (∀ offset s' e, s.free offset = some (s', .error e) → s' = s)) ∧
      (base + size < wordSize → (∀ c ∈ calls, c.Fits blockSize s₀.l2Bits) →
        (run (s₀, []) calls).isSome) := by
  obtain ⟨s₀, L, hnew, hwf, hba, hbs, hfree⟩ :=
    new_wf size base blockSize lv2Cnt
  have hinv : RunInv size (s₀, []) L := by
    refine ⟨hwf, by simp, by simp, ?_⟩
    intro c hc hcu
    rw [hfree c hc] at hcu
    cases hcu
  have hcalls' : ∀ c ∈ calls, c.NonEmpty s₀.blockSize := by rwa [hbs]
  refine ⟨s₀, hnew, ?_, ?_⟩
  · intro s live hrun
    obtain ⟨⟨L', h'⟩, -⟩ := run_inv hsize hinv hcalls' hrun
    exact ⟨h'.wf.invariant, h'.clientView, fun _ _ _ _ => alloc_error, fun _ _ _ => free_error⟩
  · intro hbase hfits
    exact run_isSome hsize hinv (by rwa [hba]) hcalls' (by rwa [hbs])

theorem run_invariant_reuse :
    ∃ s₀, new 4096 0 256 32 = some s₀ ∧
      (∀ s live, run (s₀, []) [.alloc 300 1, .alloc 256 512, .free 0] = some (s, live) →
        s.Invariant 4096 ∧ ClientView s 4096 live ∧
        (∀ req align s' e, s.alloc req align = some (s', .error e) → s' = s) ∧
        (∀ offset s' e, s.free offset = some (s', .error e) → s' = s)) ∧
      (0 + 4096 < wordSize →
        (∀ c ∈ [Call.alloc 300 1, .alloc 256 512, .free 0], c.Fits 256 s₀.l2Bits) →
        (run (s₀, []) [.alloc 300 1, .alloc 256 512, .free 0]).isSome) :=
  run_invariant 4096 0 256 32 [.alloc 300 1, .alloc 256 512, .free 0] (by decide)
    (by simp [Call.NonEmpty])

/-- An allocator with granule zero serves a request of zero bytes by splitting a block at its
    own start: the used block stays listed as free. -/
theorem run_zero_granule_breaks_invariant :
    ¬ ∀ (size base blockSize lv2Cnt : Nat) (calls : List Call) (s₀ s : TlsfAllocator)
      (live : List Live), new size base blockSize lv2Cnt = some s₀ →
      run (s₀, []) calls = some (s, live) → s.Invariant size := by
  intro h
  obtain ⟨s₀, s, live, hs₀, hrun, hmem, hused⟩ : ∃ s₀ s live, new 64 0 0 1 = some s₀ ∧
      run (s₀, []) [.alloc 0 1] = some (s, live) ∧ 0 ∈ s.bucket 7 0 ∧
      s.blocks 0 = some ⟨64, none, some 0, false⟩ := ⟨_, _, _, rfl, rfl, by decide, by decide⟩
  have hlisted := ((h 64 0 0 1 [.alloc 0 1] s₀ s live hs₀ hrun).listed 7 0 0).2.mp hmem
  obtain ⟨m, hm, hfree, -⟩ := hlisted
  rw [hused, Option.some.injEq] at hm
  subst hm
  cases hfree

/-! ## Drained allocators -/

/-- Where at most one block is listed, the index is determined by what it lists. -/
theorem TlsfAllocator.IndexRep.unique {s t : TlsfAllocator} {rows : Nat} {F : Nat → Nat → Prop}
    (hs : s.IndexRep rows F) (ht : t.IndexRep rows F) (hl2 : s.l2Bits = t.l2Bits)
    (hF : ∀ a z b y, F a z → F b y → a = b) :
    s.storage = t.storage ∧ s.lv1Entries = t.lv1Entries := by
  have hbucket : ∀ l1 l2, s.bucket l1 l2 = t.bucket l1 l2 := by
    intro l1 l2
    have hperm : (s.bucket l1 l2).Perm (t.bucket l1 l2) :=
      (List.perm_ext_iff_of_nodup (hs.nodup l1 l2) (ht.nodup l1 l2)).mpr fun a => by
        rw [hs.mem, ht.mem, hl2]
    refine hperm.eq_of_pairwise (fun a b ha hb (_ : True) (_ : True) => ?_)
      (List.pairwise_of_forall fun _ _ => trivial) (List.pairwise_of_forall fun _ _ => trivial)
    obtain ⟨z, hz, -⟩ := (hs.mem l1 l2 a).mp ha
    obtain ⟨y, hy, -⟩ := (ht.mem l1 l2 b).mp hb
    exact hF a z b y hz hy
  have hstorage : s.storage = t.storage := by
    refine List.ext_getElem (hs.storage_len.trans ht.storage_len.symm) fun i h1 h2 => ?_
    refine List.ext_getElem ?_ fun j g1 g2 => ?_
    · rw [hs.row_len _ (List.getElem_mem h1), ht.row_len _ (List.getElem_mem h2), hl2]
    · simpa [bucket, List.getD_eq_getElem?_getD, h1, h2, g1, g2] using hbucket i j
  refine ⟨hstorage, List.ext_getElem (hs.entries_len.trans ht.entries_len.symm) fun i h1 h2 => ?_⟩
  have hs' := hs.count i
  have ht' := ht.count i
  rw [List.getD_eq_getElem?_getD, List.getElem?_eq_getElem h1, Option.getD_some] at hs'
  rw [List.getD_eq_getElem?_getD, List.getElem?_eq_getElem h2, Option.getD_some] at ht'
  rw [hs', ht', hstorage]

/-- The blocks of an arena with no used one. -/
theorem eq_of_all_free (h : Tiles 0 size L) (hn : NoAdjFree L) (hfree : ∀ c ∈ L, c.tag = true) :
    L = if size = 0 then [] else [⟨0, size, true⟩] := by
  match L with
  | [] => rw [if_pos (tiles_nil.mp h).symm]
  | [⟨start, len, tag⟩] =>
    obtain ⟨rfl, hpos, hstop⟩ := tiles_cons.mp h
    obtain rfl : tag = true := hfree _ List.mem_cons_self
    simp only [tiles_nil, Seg.stop, Nat.zero_add] at hstop hpos
    rw [if_neg (by omega), hstop]
  | b :: c :: L =>
    exact absurd ⟨hfree b (by simp), hfree c (by simp)⟩ (List.isChain_cons_cons.mp hn).1

/-- A run that ends with nothing live leaves the allocator as it was new, but for the peak: what
is freed is merged back into one block, listed where it was. -/
theorem run_drained (size base blockSize lv2Cnt : Nat) (calls : List Call) {s₀ s : TlsfAllocator}
    (hsize : size < wordSize) (hcalls : ∀ c ∈ calls, c.NonEmpty blockSize)
    (hnew : new size base blockSize lv2Cnt = some s₀)
    (hrun : run (s₀, []) calls = some (s, [])) : s = { s₀ with peakUsed := s.peakUsed } := by
  obtain ⟨s₁, L, hnew', hwf, -, hbs, hfree⟩ := new_wf size base blockSize lv2Cnt
  obtain rfl : s₀ = s₁ := Option.some.inj (hnew.symm.trans hnew')
  have hinv : RunInv size (s₀, []) L :=
    ⟨hwf, by simp, by simp, fun c hc hcu => by simp [hfree c hc] at hcu⟩
  obtain ⟨⟨L', h'⟩, hba, hbs', hl2⟩ := run_inv hsize hinv (by rwa [hbs]) hrun
  have hfree' : ∀ c ∈ L', c.tag = true := by
    intro c hc
    by_contra hused
    obtain ⟨l, hl, -⟩ := h'.live.used c hc (by simpa using hused)
    cases hl
  have hL : L' = L := (eq_of_all_free h'.wf.rep.tiles h'.wf.noAdjFree hfree').trans
    (eq_of_all_free hwf.rep.tiles hwf.noAdjFree hfree).symm
  subst hL
  obtain ⟨hstorage, hentries⟩ := h'.wf.rep.index.unique hwf.rep.index hl2 fun a z b y ha hb => by
    rw [eq_of_all_free hwf.rep.tiles hwf.noAdjFree hfree] at ha hb
    split at ha
    · exact absurd ha (freeIn_nil a z)
    · simp_all [freeIn_cons]
  have hblocks : s.blocks = s₀.blocks := funext fun a =>
    (h'.wf.rep.table a).trans (hwf.rep.table a).symm
  cases s
  simp_all

theorem run_drained_split : ∃ s₀ s, new 64 0 1 1 = some s₀ ∧
    run (s₀, []) [.alloc 8 1, .free 0] = some (s, []) ∧ s = { s₀ with peakUsed := s.peakUsed } :=
  ⟨_, _, rfl, rfl, run_drained 64 0 1 1 [.alloc 8 1, .free 0] (by decide) (by simp [Call.NonEmpty])
    rfl rfl⟩

end Svod.MemoryPlanner.Tlsf
