/-
  Svod.MemoryPlanner.Budget

  The byte budget of an arena and fragmentation.

  A block is taken at the start of a free block, which is where a used block
  ends, so one call raises the end of the used bytes by at most its own size.
  Every buffer is allocated once, so the bytes behind the used ones never fall
  below the budget less the sizes of the other buffers of the lane: they are one
  free block, and it is large enough when the budget covers the sizes that the
  allocator really charges.  A zero-size buffer is charged a whole block, which
  the budget leaves out.
-/

import Svod.MemoryPlanner.Arena

namespace Svod.MemoryPlanner

open Svod.Lib Svod.Lib.Checked Svod.Lib.Tiling

namespace Tlsf

/-! ## Buckets -/

/-- A larger size has a bucket at or above. -/
theorem bucket_le_of_le {l2Bits size x : Nat} (hpos : 0 < size) (hle : size ≤ x) :
    lv1 size < lv1 x ∨ lv1 size = lv1 x ∧ lv2 l2Bits size ≤ lv2 l2Bits x := by
  rcases Nat.lt_or_eq_of_le (bitLength_mono hle) with hlt | heq
  · exact .inl hlt
  · refine .inr ⟨heq, ?_⟩
    have h0 : bitLength x ≠ 0 := Nat.pos_iff_ne_zero.mp (bitLength_pos (hpos.trans_le hle))
    simp only [lv2, heq, h0, if_false, Nat.shiftRight_eq_div_pow]
    exact Nat.div_le_div_right (Nat.sub_le_sub_right hle _)

namespace TlsfAllocator

variable {s s' : TlsfAllocator} {size req want off H : Nat} {L L' : List Block}

/-! ## The end of the used bytes -/

/-- Every used block ends at or before `H`. -/
def Below (L : List Block) (H : Nat) : Prop := ∀ c ∈ L, c.tag = false → c.stop ≤ H

/-- A block behind another block of the tiling starts where that one ends. -/
theorem stop_eq_start {lo hi : Nat} {A C : List Block} {b c : Block}
    (h : Tiles lo hi (A ++ [c] ++ b :: C)) : c.stop = b.start := by
  obtain ⟨hA, -, -⟩ := tiles_middle.mp h
  exact (tiles_middle.mp hA).2.2

/-- A free block starts at the front or where a used block ends. -/
theorem WF.free_start (h : s.WF size L) {a z : Nat} (hfree : FreeIn L a z) :
    a = 0 ∨ ∃ c ∈ L, c.tag = false ∧ c.stop = a := by
  obtain ⟨b, hb, rfl, -, htag⟩ := hfree
  obtain ⟨A, C, rfl⟩ := List.append_of_mem hb
  rcases List.eq_nil_or_concat A with rfl | ⟨A', c, rfl⟩
  · exact .inl (tiles_middle.mp h.rep.tiles).1.symm
  · rw [List.concat_eq_append] at h ⊢
    refine .inr ⟨c, by simp, ?_, stop_eq_start h.rep.tiles⟩
    -- two neighbours are not both free
    have hlast := (noAdjFree_middle.mp h.noAdjFree).2.2.1 c List.getLast?_concat
    rw [Bool.eq_false_iff]
    exact fun hc => hlast ⟨hc, htag⟩

theorem WF.free_start_le (h : s.WF size L) (hbelow : Below L H) {a z : Nat}
    (hfree : FreeIn L a z) : a ≤ H := by
  rcases h.free_start hfree with rfl | ⟨c, hc, htag, rfl⟩
  · exact Nat.zero_le _
  · exact hbelow c hc htag

/-- The bytes behind the used ones are part of one free block. -/
theorem WF.exists_tail (h : s.WF size L) (hbelow : Below L H) (hlt : H < size) :
    ∃ a, a ≤ H ∧ FreeIn L a (size - a) := by
  obtain ⟨b, hb, hle, hge⟩ := h.rep.tiles.exists_mem (Nat.zero_le (size - 1)) (by omega)
  have hbounds := h.rep.tiles.mem_bounds hb
  have htag : b.tag = true := by
    by_contra hused
    have := hbelow b hb (Bool.eq_false_iff.mpr hused)
    omega
  have hlen : b.len = size - b.start := by
    simp only [Seg.stop] at hge hbounds
    omega
  have hfree : FreeIn L b.start (size - b.start) := ⟨b, hb, rfl, hlen, htag⟩
  exact ⟨b.start, h.free_start_le hbelow hfree, hfree⟩

/-! ## One call -/

/-- A free block as large as the search size is enough for `alloc`. -/
theorem WF.alloc_ne_error (h : s.WF size L) {a z : Nat}
    (hwant : searchSize s.blockSize s.l2Bits (max req s.blockSize) 1 = some want)
    (hpos : 0 < want) (hfree : FreeIn L a z) (hle : want ≤ z) (e : TlsfError) :
    s.alloc req 1 ≠ some (s', .error e) := by
  intro halloc
  simp only [alloc, Nat.max_self, Option.bind_eq_bind, hwant, Option.bind_some] at halloc
  split at halloc
  · rename_i hnone
    exact findBlock_none h.rep.index hnone hfree (bucket_le_of_le hpos hle)
  · simp only [Option.bind_eq_some_iff, Option.some.injEq, Prod.mk.injEq, reduceCtorEq,
      and_false, exists_false] at halloc

/-- Without a free block as large as the search size, `alloc` is out of memory. -/
theorem WF.alloc_eq_error (h : s.WF size L) (hreq : 0 < max req s.blockSize)
    (hwant : searchSize s.blockSize s.l2Bits (max req s.blockSize) 1 = some want)
    (hsmall : ∀ a z, FreeIn L a z → z < want) :
    s.alloc req 1 = some (s, .error (.outOfMemory (max req s.blockSize))) := by
  have hbucket := (searchSize_spec hwant h.l2Bits_pos hreq (Nat.le_refl 1)).2
  have hnone : s.findBlock (lv1 want) (lv2 s.l2Bits want) = none := by
    rw [Option.eq_none_iff_forall_ne_some]
    intro start hfind
    obtain ⟨z, hz, hge⟩ := findBlock_some h.rep.index hfind
    have hfit := le_of_bucket_le h.l2Bits_pos hbucket (hz.bounds h.rep.tiles).2.1 hge
    exact absurd (hsmall start z hz) (Nat.not_lt.mpr hfit)
  simp only [alloc, Nat.max_self, Option.bind_eq_bind, hwant, Option.bind_some, hnone]

/-- An aligned head is no head at all when the alignment is one. -/
theorem splitHead_one (start nsize : Nat) :
    s.splitHead start nsize 1 = some (s, start, nsize) := by
  simp [splitHead, roundUp]

/-- A successful `alloc` takes the front of a free block. -/
theorem WF.alloc_start (h : s.WF size L) (hbase : s'.base = s.base)
    (halloc : s.alloc req 1 = some (s', .ok off)) : ∃ a z, FreeIn L a z ∧ off = a + s.base := by
  simp only [alloc, Nat.max_self, bind_eq_some] at halloc
  obtain ⟨want, -, halloc⟩ := halloc
  split at halloc
  · simp at halloc
  · rename_i start hfind
    obtain ⟨z, hz, -⟩ := findBlock_some h.rep.index hfind
    refine ⟨start, z, hz, ?_⟩
    simp only [Option.bind_eq_some_iff, takeBlock, splitHead_one, Option.bind_eq_bind,
      Option.bind_some, Option.some.injEq, Prod.mk.injEq, Except.ok.injEq] at halloc
    obtain ⟨p, ⟨_, _, _, _, t, _, u, _, o, ho, _, _, hp⟩, hs', hoff⟩ := halloc
    have hu : u.base = s.base := by rw [← hbase, ← hs', ← hp]
    rw [← hoff, ← hp, ← hu]
    exact (checkedAdd_eq_some.mp ho).2

/-- A successful `alloc` raises the end of the used bytes by at most its size. -/
theorem WF.alloc_below (h : s.WF size L) (hsize : size < wordSize) (hbelow : Below L H)
    (hreq : 0 < max req s.blockSize) (halloc : s.alloc req 1 = some (s', .ok off)) :
    ∃ L', s'.WF size L' ∧ s'.base = s.base ∧ s'.blockSize = s.blockSize ∧
      s'.l2Bits = s.l2Bits ∧ Below L' (H + max req s.blockSize) ∧
      ∃ m z, FreeIn L m z ∧ Allocated L L' m (max req s.blockSize) := by
  cases hwant : searchSize s.blockSize s.l2Bits (max req s.blockSize) (max 1 1) with
  | none => simp only [alloc, hwant, Option.bind_eq_bind, Option.bind_none, reduceCtorEq] at halloc
  | some want =>
    rcases alloc_spec 1 h hsize hreq hwant with herr | ⟨t, L', m, hok, hb, hbs, hl2, hwf, hal, -⟩
    · rw [herr] at halloc
      simp at halloc
    · rw [hok, Option.map_eq_some_iff] at halloc
      obtain ⟨o, ho, hpair⟩ := halloc
      simp only [Prod.mk.injEq, Except.ok.injEq] at hpair
      obtain ⟨rfl, rfl⟩ := hpair
      have hcall : s.alloc req 1 = some (t, .ok o) := by rw [hok, ho, Option.map_some]
      obtain ⟨a, z, hfree, hoff⟩ := h.alloc_start hb hcall
      have hma : m = a := by
        have := (checkedAdd_eq_some.mp ho).2
        omega
      subst hma
      refine ⟨L', hwf, hb, hbs, hl2, ?_, m, z, hfree, hal⟩
      intro c hc htag
      rcases (hal.used_iff c htag).mp hc with hold | rfl
      · exact (hbelow c hold htag).trans (Nat.le_add_right _ _)
      · exact Nat.add_le_add_right (h.free_start_le hbelow hfree) _

/-- `new` keeps the number of second-level bits. -/
theorem l2Bits_new {base blockSize lv2Cnt : Nat} (h : new size base blockSize lv2Cnt = some s) :
    s.l2Bits = bitLength (max lv2Cnt 1) := by
  simp only [new] at h
  split at h
  · simp only [insertBlockIndex, bind_eq_some,
      Option.some.injEq] at h
    obtain ⟨_, -, _, -, _, -, rfl⟩ := h
    rfl
  · simp only [Option.some.injEq] at h
    subst h
    rfl

end TlsfAllocator

end Tlsf

/-! ## What the buffers of a lane are charged -/

/-- What an allocator takes for a buffer: its rounded size, and at least one block. -/
def BufferLiveness.charge (info : BufferLiveness) : Nat :=
  max (ceilTo info.proto.size minBlockSize) minBlockSize

/-- The bytes that an event takes from `lane`. -/
def laneCharge (liveness : Liveness) (lane : LaneKey) (e : BufferEvent) : Nat :=
  match liveness.lookup e.bufferId with
  | some info => if e.isAlloc = true ∧ info.proto.laneKey = lane then info.charge else 0
  | none => 0

/-- The bytes that the events take from `lane`, those given back included. -/
def charged (liveness : Liveness) (lane : LaneKey) (events : List BufferEvent) : Nat :=
  (events.map (laneCharge liveness lane)).sum

/-- What all buffers of a lane are charged. -/
def laneDemand (liveness : Liveness) (lane : LaneKey) : Nat :=
  (liveness.values.map fun info => if info.proto.laneKey = lane then info.charge else 0).sum

theorem charged_append (liveness : Liveness) (lane : LaneKey) (es fs : List BufferEvent) :
    charged liveness lane (es ++ fs) = charged liveness lane es + charged liveness lane fs := by
  rw [charged, List.map_append, List.sum_append]
  rfl

theorem charged_singleton (liveness : Liveness) (lane : LaneKey) (e : BufferEvent) :
    charged liveness lane [e] = laneCharge liveness lane e := by
  rw [charged, List.map_singleton, List.sum_singleton]

/-- Over the whole timeline every buffer is charged once. -/
theorem charged_timeline (liveness : Liveness) (lane : LaneKey) :
    charged liveness lane (buildEventTimeline liveness) = laneDemand liveness lane := by
  have hperm := (List.perm_insertionSort (fun e e' : BufferEvent => e.le e' = true)
    (liveness.entries.flatMap fun e => bufferEvents e.1 e.2)).map (laneCharge liveness lane)
  have hlook : ∀ e ∈ liveness.entries, liveness.lookup e.1 = some e.2 := fun e he =>
    AList.mem_lookup_iff.mpr he
  rw [charged, buildEventTimeline, hperm.sum_eq, laneDemand, Liveness.values, List.map_map]
  generalize liveness.entries = es at hlook
  induction es with
  | nil => rfl
  | cons e es ih =>
    have he := hlook e List.mem_cons_self
    rw [List.flatMap_cons, List.map_append, List.sum_append,
      ih fun x hx => hlook x (List.mem_cons_of_mem e hx), List.map_cons, List.sum_cons]
    simp [bufferEvents, laneCharge, he]

/-- What is charged before an event of the timeline, the event itself, and what comes after. -/
theorem charged_split {liveness : Liveness} {pre post : List BufferEvent} {e : BufferEvent}
    (h : buildEventTimeline liveness = pre ++ e :: post) (lane : LaneKey) :
    charged liveness lane pre + laneCharge liveness lane e + charged liveness lane post =
      laneDemand liveness lane := by
  have hcons : charged liveness lane (e :: post) =
      laneCharge liveness lane e + charged liveness lane post := by
    rw [charged, List.map_cons, List.sum_cons]
    rfl
  rw [← charged_timeline, h, charged_append, hcons, Nat.add_assoc]

/-! ## The budget -/

/-- The arena loop before its first event. -/
def arenaStart : ArenaState := ⟨fun _ => none, fun _ => none, ∅⟩

/-- An `alloc` of the timeline returns `OutOfMemory`. -/
def OutOfMemory (budget : Nat) (liveness : Liveness) : Prop :=
  ∃ pre e post st, buildEventTimeline liveness = pre ++ e :: post ∧
    arenaLoop budget liveness arenaStart pre = some (.ok st) ∧ e.isAlloc = true ∧
      arenaEvent budget liveness st e = some (.error ())

/-- The size an allocator of the planner searches for. -/
def BufferLiveness.searched (info : BufferLiveness) : Option Nat :=
  Tlsf.searchSize minBlockSize (bitLength 32) info.charge 1

/-- Behind what the other buffers of its lane are charged, each buffer finds the size that is
    searched for. -/
def Covers (budget : Nat) (liveness : Liveness) : Prop :=
  ∀ id info want, liveness.lookup id = some info → info.searched = some want →
    laneDemand liveness info.proto.laneKey - info.charge + want ≤ budget

/-- The same buffer with another level interval. -/
def BufferLiveness.during (info : BufferLiveness) (levels : Nat × Nat) : BufferLiveness :=
  { info with firstLevel := levels.1, lastLevel := levels.2 }

@[simp] theorem firstLevel_during (info : BufferLiveness) (levels : Nat × Nat) :
    (info.during levels).firstLevel = levels.1 := rfl

@[simp] theorem lastLevel_during (info : BufferLiveness) (levels : Nat × Nat) :
    (info.during levels).lastLevel = levels.2 := rfl

/-- The same buffers with other level intervals. -/
def relevel (liveness : Liveness) (levels : Nat → Nat × Nat) : Liveness where
  entries := liveness.entries.map (Sigma.map id fun i info => info.during (levels i))
  nodupKeys := List.NodupKeys.map₂ (fun i info => info.during (levels i)) _ liveness.nodupKeys

/-! ## The loop -/

variable {liveness : Liveness} {budget : Nat} {pre post : List BufferEvent}
  {st st' : ArenaState} {e : BufferEvent}

/-- The allocator of a lane, of which at most the first `H` bytes are used. -/
structure LaneBelow (budget H : Nat) (s : Tlsf.TlsfAllocator) (L : List Tlsf.Block) : Prop where
  wf : s.WF budget L
  base : s.base = 0
  blockSize : s.blockSize = minBlockSize
  l2Bits : s.l2Bits = bitLength 32
  below : Tlsf.TlsfAllocator.Below L H

/-- After the events `pre` no lane uses more bytes than it was charged. -/
def BudgetInv (liveness : Liveness) (budget : Nat) (pre : List BufferEvent) (st : ArenaState) :
    Prop :=
  ∀ lane s, st.tlsfs lane = some s → ∃ L, LaneBelow budget (charged liveness lane pre) s L

theorem LaneBelow.new {s : Tlsf.TlsfAllocator}
    (h : Tlsf.TlsfAllocator.new budget 0 minBlockSize 32 = some s) (H : Nat) :
    ∃ L, LaneBelow budget H s L ∧ ∀ c ∈ L, c.tag = true := by
  obtain ⟨s', L, hnew, hwf, hbase, hbs, hfree⟩ :=
    Tlsf.TlsfAllocator.new_wf budget 0 minBlockSize 32
  rw [h, Option.some.injEq] at hnew
  subst hnew
  refine ⟨L, ⟨hwf, hbase, hbs, Tlsf.TlsfAllocator.l2Bits_new h, ?_⟩, hfree⟩
  intro c hc hused
  rw [hfree c hc] at hused
  cases hused

theorem BudgetInv.openLane (h : BudgetInv liveness budget pre st) {lane : LaneKey}
    {s : Tlsf.TlsfAllocator} (hs : laneAllocator budget st lane = some s) :
    ∃ L, LaneBelow budget (charged liveness lane pre) s L := by
  unfold laneAllocator at hs
  split at hs
  · rename_i a ha
    rw [Option.some.injEq] at hs
    exact hs ▸ h lane a ha
  · obtain ⟨L, hL, -⟩ := LaneBelow.new hs (charged liveness lane pre)
    exact ⟨L, hL⟩

/-- The lane of the event gets a new allocator, the others keep theirs. -/
theorem BudgetInv.update (h : BudgetInv liveness budget pre st) {lane : LaneKey}
    {s : Tlsf.TlsfAllocator} {offsets : Nat → Option Nat} {peaks : AList fun _ : LaneKey => Nat}
    (hlane : ∃ L, LaneBelow budget (charged liveness lane (pre ++ [e])) s L) :
    BudgetInv liveness budget (pre ++ [e])
      ⟨Function.update st.tlsfs lane (some s), offsets, peaks⟩ := by
  intro lane' s' hs'
  by_cases heq : lane' = lane
  · subst heq
    simp only [Function.update_self, Option.some.injEq] at hs'
    exact hs' ▸ hlane
  · simp only [Function.update_of_ne heq] at hs'
    obtain ⟨L, hL⟩ := h lane' s' hs'
    refine ⟨L, hL.wf, hL.base, hL.blockSize, hL.l2Bits, fun c hc hused => ?_⟩
    rw [charged_append]
    exact (hL.below c hc hused).trans (Nat.le_add_right _ _)

theorem roundUp_eq {n r : Nat} (h : roundUp n minBlockSize = some r) :
    r = ceilTo n minBlockSize := (divCeilMul_eq_some.mp h).2

theorem laneCharge_alloc {info : BufferLiveness} (hinfo : liveness.lookup e.bufferId = some info)
    (halloc : e.isAlloc = true) :
    laneCharge liveness info.proto.laneKey e = info.charge := by
  simp [laneCharge, hinfo, halloc]

theorem budgetInv_event (hbudget : budget < wordSize) (h : BudgetInv liveness budget pre st)
    (hstep : arenaEvent budget liveness st e = some (.ok st')) :
    BudgetInv liveness budget (pre ++ [e]) st' := by
  simp only [arenaEvent, Option.bind_eq_bind, Option.bind_eq_some_iff] at hstep
  obtain ⟨info, hinfo, s, hs, hstep⟩ := hstep
  obtain ⟨L, hL⟩ := h.openLane hs
  split at hstep
  · rename_i halloc
    simp only [Option.bind_eq_some_iff] at hstep
    obtain ⟨req, hreq, ⟨s', r⟩, hcall, hstep⟩ := hstep
    cases r with
    | error _ => simp at hstep
    | ok off =>
      simp only [Option.bind_eq_some_iff, Option.some.injEq, Except.ok.injEq] at hstep
      obtain ⟨usedEnd, -, rfl⟩ := hstep
      have hcharge : max req s.blockSize = info.charge := by
        rw [hL.blockSize, roundUp_eq hreq]
        rfl
      have hpos : 0 < max req s.blockSize := by
        rw [hL.blockSize]
        exact Nat.lt_of_lt_of_le (by decide) (Nat.le_max_right _ _)
      obtain ⟨L', hwf, hbase, hbs, hl2, hbelow, -⟩ :=
        hL.wf.alloc_below hbudget hL.below hpos hcall
      refine h.update ⟨L', hwf, hbase.trans hL.base, hbs.trans hL.blockSize,
        hl2.trans hL.l2Bits, ?_⟩
      rw [charged_append, charged_singleton, laneCharge_alloc hinfo halloc, ← hcharge]
      exact hbelow
  · have hkeep : charged liveness info.proto.laneKey pre ≤
        charged liveness info.proto.laneKey (pre ++ [e]) := by
      rw [charged_append]
      exact Nat.le_add_right _ _
    split at hstep
    · simp only [Option.some.injEq, Except.ok.injEq] at hstep
      subst hstep
      exact h.update ⟨L, hL.wf, hL.base, hL.blockSize, hL.l2Bits,
        fun c hc hused => (hL.below c hc hused).trans hkeep⟩
    · rename_i off hoff
      simp only [Option.bind_eq_some_iff] at hstep
      obtain ⟨⟨s', r⟩, hcall, hstep⟩ := hstep
      cases r with
      | error _ => simp at hstep
      | ok _ =>
        simp only [Option.some.injEq, Except.ok.injEq] at hstep
        subst hstep
        rcases Tlsf.TlsfAllocator.free_spec off hL.wf hbudget with
          herr | herr | ⟨t, L', hok, hbase, hbs, hl2, hwf, -, -, hused⟩
        · rw [herr] at hcall
          simp at hcall
        · rw [herr] at hcall
          simp at hcall
        · rw [hok, Option.some.injEq, Prod.mk.injEq] at hcall
          obtain ⟨rfl, -⟩ := hcall
          refine h.update ⟨L', hwf, hbase.trans hL.base, hbs.trans hL.blockSize,
            hl2.trans hL.l2Bits, fun c hc hc' => ?_⟩
          exact (hL.below c ((hused c hc').mp hc).1 hc').trans hkeep

theorem budgetInv_loop (hbudget : budget < wordSize) (h : BudgetInv liveness budget pre st)
    (hrun : arenaLoop budget liveness st post = some (.ok st')) :
    BudgetInv liveness budget (pre ++ post) st' := by
  induction post generalizing pre st with
  | nil =>
    simp only [arenaLoop, Option.some.injEq, Except.ok.injEq] at hrun
    rw [List.append_nil]
    exact hrun ▸ h
  | cons e post ih =>
    simp only [arenaLoop, bind_eq_some] at hrun
    obtain ⟨r, hstep, hrun⟩ := hrun
    cases r with
    | error _ => simp at hrun
    | ok st1 =>
      rw [← List.singleton_append, ← List.append_assoc]
      exact ih (budgetInv_event hbudget h hstep) hrun

/-- A budget that covers the charges is never exhausted. -/
theorem not_outOfMemory_of_covers (hbudget : budget < wordSize) (h : Covers budget liveness) :
    ¬ OutOfMemory budget liveness := by
  rintro ⟨pre, e, post, st, hsplit, hrun, halloc, herr⟩
  have hinv : BudgetInv liveness budget ([] ++ pre) st :=
    budgetInv_loop hbudget (fun lane s hs => by cases hs) hrun
  rw [List.nil_append] at hinv
  simp only [arenaEvent, Option.bind_eq_bind, Option.bind_eq_some_iff] at herr
  obtain ⟨info, hinfo, s, hs, herr⟩ := herr
  obtain ⟨L, hL⟩ := hinv.openLane hs
  rw [if_pos halloc, Option.bind_eq_some_iff] at herr
  obtain ⟨req, hreq, herr⟩ := herr
  rw [Option.bind_eq_some_iff] at herr
  obtain ⟨⟨s', r⟩, hcall, herr⟩ := herr
  cases r with
  | ok off =>
    simp only [Option.bind_eq_some_iff, Option.some.injEq, reduceCtorEq, and_false,
      exists_false] at herr
  | error err =>
    have hcharge : max req s.blockSize = info.charge := by
      rw [hL.blockSize, roundUp_eq hreq]
      rfl
    have hpos : 0 < info.charge :=
      Nat.lt_of_lt_of_le (by decide) (Nat.le_max_right _ minBlockSize)
    cases hwant : Tlsf.searchSize s.blockSize s.l2Bits (max req s.blockSize) 1 with
    | none =>
      simp only [Tlsf.TlsfAllocator.alloc, Nat.max_self, hwant, Option.bind_eq_bind,
        Option.bind_none, reduceCtorEq] at hcall
    | some want =>
      have hle := (Tlsf.TlsfAllocator.searchSize_spec hwant hL.wf.l2Bits_pos (by omega)
        (Nat.le_refl 1)).1
      have hcover := h e.bufferId info want hinfo (by
        rw [BufferLiveness.searched, ← hcharge, ← hwant, hL.blockSize, hL.l2Bits])
      have hsum := charged_split hsplit info.proto.laneKey
      rw [laneCharge_alloc hinfo halloc] at hsum
      -- the others were charged at most the lane's demand less this buffer's charge
      obtain ⟨a, ha, hfree⟩ := hL.wf.exists_tail hL.below (by omega)
      exact hL.wf.alloc_ne_error hwant (by omega) hfree (by omega) err hcall

/-! ## Buffers that all live at once -/

/-- After the allocations `pre` every lane is used without gaps from the front. -/
def StackInv (liveness : Liveness) (budget : Nat) (pre : List BufferEvent) (st : ArenaState) :
    Prop :=
  (∀ lane, st.tlsfs lane = none → charged liveness lane pre = 0) ∧
    ∀ lane s, st.tlsfs lane = some s → ∃ L, LaneBelow budget (charged liveness lane pre) s L ∧
      ∀ a z, Tlsf.FreeIn L a z → charged liveness lane pre ≤ a

theorem StackInv.openLane (h : StackInv liveness budget pre st) (lane : LaneKey) :
    ∃ s L, laneAllocator budget st lane = some s ∧
      LaneBelow budget (charged liveness lane pre) s L ∧
        ∀ a z, Tlsf.FreeIn L a z → charged liveness lane pre ≤ a := by
  unfold laneAllocator
  cases hl : st.tlsfs lane with
  | some s =>
    obtain ⟨L, hL, hfree⟩ := h.2 lane s hl
    exact ⟨s, L, rfl, hL, hfree⟩
  | none =>
    obtain ⟨s, -, hnew, -⟩ := Tlsf.TlsfAllocator.new_wf budget 0 minBlockSize 32
    obtain ⟨L, hL, -⟩ := LaneBelow.new hnew (charged liveness lane pre)
    refine ⟨s, L, hnew, hL, fun a z _ => ?_⟩
    rw [h.1 lane hl]
    exact Nat.zero_le a

/-- Behind a block taken at the end of the used bytes nothing free is left in front. -/
theorem free_start_of_allocated {s' : Tlsf.TlsfAllocator} {L L' : List Tlsf.Block}
    {H m n size a z : Nat} (htiles : Tiles 0 size L) (hwf : s'.WF size L')
    (hal : Tlsf.TlsfAllocator.Allocated L L' m n) (hm : m ≤ H)
    (hstack : ∀ a z, Tlsf.FreeIn L a z → H ≤ a) (hfree : Tlsf.FreeIn L' a z)
    (hmfree : ∃ z, Tlsf.FreeIn L m z) : H + n ≤ a := by
  obtain ⟨zm, hmfree⟩ := hmfree
  have hHm : m = H := Nat.le_antisymm hm (hstack m zm hmfree)
  subst hHm
  have hbounds := hfree.bounds hwf.rep.tiles
  obtain ⟨c, hc, hca, hcz, hctag⟩ := hfree
  -- the used block that holds offset `a`, if it lies in front of the new end
  by_contra hlt
  have hused : ∃ b ∈ L', b.tag = false ∧ b.start ≤ a ∧ a < b.stop := by
    rcases Nat.lt_or_ge a m with hin | hge
    · obtain ⟨b, hb, hle, hgt⟩ := htiles.exists_mem (Nat.zero_le a) (by omega)
      have htag : b.tag = false := by
        rw [Bool.eq_false_iff]
        intro htrue
        have := hstack b.start b.len ⟨b, hb, rfl, rfl, htrue⟩
        omega
      exact ⟨b, (hal.used_iff b htag).mpr (Or.inl hb), htag, hle, hgt⟩
    · refine ⟨⟨m, n, false⟩, (hal.used_iff _ rfl).mpr (Or.inr rfl), rfl, hge, ?_⟩
      simp only [Seg.stop]
      omega
  obtain ⟨b, hb, htag, hle, hgt⟩ := hused
  rcases hwf.rep.tiles.eq_or_disjoint hb hc with heq | hdisj
  · rw [heq, hctag] at htag
    cases htag
  · simp only [Seg.stop] at hdisj hgt
    omega

/-- The allocation of one more buffer either runs out of memory or keeps the lanes without gaps. -/
theorem stackInv_event (hbudget : budget < wordSize) (h : StackInv liveness budget pre st)
    {info : BufferLiveness} (hinfo : liveness.lookup e.bufferId = some info)
    (halloc : e.isAlloc = true) (hround : (roundUp info.proto.size minBlockSize).isSome)
    (hsearch : info.searched.isSome) :
    arenaEvent budget liveness st e = some (.error ()) ∨
      ∃ st', arenaEvent budget liveness st e = some (.ok st') ∧
        StackInv liveness budget (pre ++ [e]) st' := by
  obtain ⟨s, L, hs, hL, hstack⟩ := h.openLane info.proto.laneKey
  obtain ⟨req, hreq⟩ := Option.isSome_iff_exists.mp hround
  obtain ⟨want, hwant⟩ := Option.isSome_iff_exists.mp hsearch
  have hcharge : max req s.blockSize = info.charge := by
    rw [hL.blockSize, roundUp_eq hreq]
    rfl
  have hpos : 0 < max req s.blockSize := by
    rw [hL.blockSize]
    exact Nat.lt_of_lt_of_le (by decide) (Nat.le_max_right _ _)
  have hwant' : Tlsf.searchSize s.blockSize s.l2Bits (max req s.blockSize) (max 1 1) =
      some want := by
    rw [hcharge, hL.blockSize, hL.l2Bits]
    exact hwant
  rcases Tlsf.TlsfAllocator.alloc_spec 1 hL.wf hbudget hpos hwant' with
    herr | ⟨s', L', m, hok, hb, hbs, hl2, hwf, hal, -⟩
  · refine Or.inl ?_
    simp only [arenaEvent, Option.bind_eq_bind, hinfo, Option.bind_some, hs, halloc, if_true,
      hreq, herr]
  · -- the sums of the event stay inside the budget
    have hnew : (⟨m, max req s.blockSize, false⟩ : Tlsf.Block) ∈ L' :=
      (hal.used_iff _ rfl).mpr (Or.inr rfl)
    have hbounds := hwf.rep.tiles.mem_bounds hnew
    simp only [Seg.stop] at hbounds
    have hsize : info.proto.size ≤ max req s.blockSize :=
      (le_roundUp (by decide) hreq).trans (Nat.le_max_left _ _)
    have hcall : s.alloc req 1 = some (s', .ok m) := by
      rw [hok, hL.base, checkedAdd_of_lt (by omega), Option.map_some, Nat.add_zero]
    have hend : checkedAdd m info.proto.size = some (m + info.proto.size) :=
      checkedAdd_of_lt (by omega)
    have hevent : arenaEvent budget liveness st e = some (.ok
        { tlsfs := Function.update st.tlsfs info.proto.laneKey (some s')
          offsets := Function.update st.offsets e.bufferId (some m)
          peaks := st.peaks.insert info.proto.laneKey
            (max ((st.peaks.lookup info.proto.laneKey).getD 0) (m + info.proto.size)) }) := by
      simp only [arenaEvent, Option.bind_eq_bind, hinfo, Option.bind_some, hs, halloc, if_true,
        hreq, hcall, hend]
    refine Or.inr ⟨_, hevent, ?_⟩
    obtain ⟨L₁, hwf₁, -, -, -, hbelow₁, m₁, z₁, hfree₁, hal₁⟩ :=
      hL.wf.alloc_below hbudget hL.below hpos hcall
    have hlane : laneCharge liveness info.proto.laneKey e = max req s.blockSize := by
      rw [laneCharge_alloc hinfo halloc, hcharge]
    constructor
    · intro lane hnone
      by_cases heq : lane = info.proto.laneKey
      · subst heq
        simp only [Function.update_self, reduceCtorEq] at hnone
      · simp only [Function.update_of_ne heq] at hnone
        rw [charged_append, charged_singleton, h.1 lane hnone, Nat.zero_add, laneCharge, hinfo]
        exact if_neg fun hand => heq hand.2.symm
    · intro lane t ht
      by_cases heq : lane = info.proto.laneKey
      · subst heq
        simp only [Function.update_self, Option.some.injEq] at ht
        subst ht
        rw [charged_append, charged_singleton, hlane]
        refine ⟨L₁, ⟨hwf₁, hb.trans hL.base, hbs.trans hL.blockSize, hl2.trans hL.l2Bits,
          hbelow₁⟩, fun a z hfree => ?_⟩
        exact free_start_of_allocated hL.wf.rep.tiles hwf₁ hal₁
          (hL.wf.free_start_le hL.below hfree₁) hstack hfree ⟨z₁, hfree₁⟩
      · simp only [Function.update_of_ne heq] at ht
        obtain ⟨M, hM, hMfree⟩ := h.2 lane t ht
        have hsame : charged liveness lane (pre ++ [e]) = charged liveness lane pre := by
          rw [charged_append, charged_singleton, laneCharge, hinfo]
          show _ + (if _ then _ else _) = _
          rw [if_neg fun hand => heq hand.2.symm, Nat.add_zero]
        rw [hsame]
        exact ⟨M, hM, hMfree⟩

/-- A run of allocations either runs out of memory on the way or keeps the lanes without gaps. -/
theorem stackInv_loop (hbudget : budget < wordSize) (h : StackInv liveness budget pre st)
    (hpost : ∀ x ∈ post, x.isAlloc = true ∧ ∃ info, liveness.lookup x.bufferId = some info ∧
      (roundUp info.proto.size minBlockSize).isSome ∧ info.searched.isSome) :
    (∃ p x q st₁, post = p ++ x :: q ∧ arenaLoop budget liveness st p = some (.ok st₁) ∧
        x.isAlloc = true ∧ arenaEvent budget liveness st₁ x = some (.error ())) ∨
      ∃ st', arenaLoop budget liveness st post = some (.ok st') ∧
        StackInv liveness budget (pre ++ post) st' := by
  induction post generalizing pre st with
  | nil => exact Or.inr ⟨st, rfl, by rwa [List.append_nil]⟩
  | cons x post ih =>
    obtain ⟨halloc, info, hinfo, hround, hsearch⟩ := hpost x List.mem_cons_self
    rcases stackInv_event hbudget h hinfo halloc hround hsearch with herr | ⟨st₁, hok, hinv⟩
    · exact Or.inl ⟨[], x, post, st, rfl, rfl, halloc, herr⟩
    · rcases ih hinv fun y hy => hpost y (List.mem_cons_of_mem x hy) with
        ⟨p, y, q, st₂, rfl, hrun, hy, herr⟩ | ⟨st', hrun, hinv'⟩
      · refine Or.inl ⟨x :: p, y, q, st₂, rfl, ?_, hy, herr⟩
        simp only [arenaLoop, Option.bind_eq_bind, hok, Option.bind_some, hrun]
      · refine Or.inr ⟨st', ?_, ?_⟩
        · simp only [arenaLoop, Option.bind_eq_bind, hok, Option.bind_some, hrun]
        · rwa [← List.singleton_append, ← List.append_assoc]

theorem lookup_relevel (levels : Nat → Nat × Nat) (id : Nat) :
    (relevel liveness levels).lookup id =
      (liveness.lookup id).map fun info => info.during (levels id) :=
  List.dlookup_map₂ (f := fun i info => BufferLiveness.during info (levels i)) id

theorem laneDemand_relevel (levels : Nat → Nat × Nat) (lane : LaneKey) :
    laneDemand (relevel liveness levels) lane = laneDemand liveness lane := by
  simp only [laneDemand, Liveness.values, relevel, List.map_map]
  rfl

theorem covers_relevel (levels : Nat → Nat × Nat) :
    Covers budget (relevel liveness levels) ↔ Covers budget liveness := by
  constructor
  · intro h id info want hinfo hwant
    have hrel := h id (info.during (levels id)) want
      (by rw [lookup_relevel, hinfo, Option.map_some]) hwant
    rwa [laneDemand_relevel] at hrel
  · intro h id info want hinfo hwant
    rw [lookup_relevel, Option.map_eq_some_iff] at hinfo
    obtain ⟨info₀, hinfo₀, rfl⟩ := hinfo
    have hold := h id info₀ want hinfo₀ hwant
    rwa [laneDemand_relevel]

/-- All buffers live at once, `id` opened last: some `alloc` runs out of memory when the budget
    leaves too little behind the others. -/
theorem outOfMemory_of_not_covers (hbudget : budget < wordSize)
    (hfits : ∀ id info, liveness.lookup id = some info →
      (roundUp info.proto.size minBlockSize).isSome ∧ info.searched.isSome)
    {id want : Nat} {info : BufferLiveness} (hinfo : liveness.lookup id = some info)
    (hwant : info.searched = some want)
    (hover : budget < laneDemand liveness info.proto.laneKey - info.charge + want) :
    OutOfMemory budget (relevel liveness fun i => if i = id then (1, 1) else (0, 1)) := by
  set levels : Nat → Nat × Nat := fun i => if i = id then (1, 1) else (0, 1) with hlevels
  set last : BufferEvent := ⟨1, true, id⟩ with hlast
  set late := relevel liveness levels with hlate
  have hinfo' : late.lookup last.bufferId = some (info.during (1, 1)) := by
    rw [hlate, lookup_relevel, hinfo, Option.map_some]
    simp [hlevels, hlast]
  have hmem : last ∈ buildEventTimeline late := alloc_mem_timeline.mpr ⟨_, hinfo', rfl⟩
  obtain ⟨pre, post, hsplit⟩ := List.append_of_mem hmem
  obtain ⟨hbefore, hafter⟩ := timeline_split hsplit
  have hrefl : last.le last = true := by rw [BufferEvent.le_iff]; simp
  -- every allocation of the timeline but the last one is at level 0
  have hlevel : ∀ x ∈ buildEventTimeline late, x.isAlloc = true → x ≠ last → x.timestep = 0 := by
    intro x hx halloc hne
    obtain ⟨t, isAlloc, j⟩ := x
    simp only at halloc
    subst halloc
    obtain ⟨info', hj, rfl⟩ := alloc_mem_timeline.mp hx
    rw [hlate, lookup_relevel, Option.map_eq_some_iff] at hj
    obtain ⟨info₀, -, rfl⟩ := hj
    by_cases hjid : j = id
    · subst hjid
      exact absurd (by simp [hlevels, hlast]) hne
    · simp [hlevels, hjid]
  have hfirst : ∀ x ∈ pre, x.isAlloc = true := by
    intro x hx
    have hxmem : x ∈ buildEventTimeline late := by
      rw [hsplit]
      exact List.mem_append_left _ hx
    by_contra hfree
    obtain ⟨t, isAlloc, j⟩ := x
    simp only [Bool.not_eq_true] at hfree
    subst hfree
    obtain ⟨info', hj, rfl⟩ := free_mem_timeline.mp hxmem
    rw [hlate, lookup_relevel, Option.map_eq_some_iff] at hj
    obtain ⟨info₀, -, rfl⟩ := hj
    have hle := hbefore _ hx
    rw [← Bool.not_eq_true, BufferEvent.le_iff] at hle
    simp only [hlast, hlevels, lastLevel_during] at hle
    split at hle <;> simp at hle
  have hrest : charged late info.proto.laneKey post = 0 := by
    rw [charged, List.sum_eq_zero_iff]
    intro n hn
    obtain ⟨x, hx, rfl⟩ := List.mem_map.mp hn
    have hxmem : x ∈ buildEventTimeline late := by
      rw [hsplit]
      exact List.mem_append_right _ (List.mem_cons_of_mem _ hx)
    have hle := hafter x hx
    have hfree : x.isAlloc = false := by
      rw [Bool.eq_false_iff]
      intro halloc
      by_cases heq : x = last
      · rw [heq, hrefl] at hle
        cases hle
      · have hzero := hlevel x hxmem halloc heq
        rw [← Bool.not_eq_true, BufferEvent.le_iff] at hle
        exact hle (Or.inl (by rw [hzero, hlast]; exact Nat.zero_lt_one))
    rw [laneCharge]
    split
    · simp [hfree]
    · rfl
  have hsum := charged_split hsplit info.proto.laneKey
  have hcharge : laneCharge late (info.during (1, 1)).proto.laneKey last =
      (info.during (1, 1)).charge := laneCharge_alloc hinfo' rfl
  change laneCharge late info.proto.laneKey last = info.charge at hcharge
  rw [hcharge, hrest, hlate, laneDemand_relevel] at hsum
  have hpost : ∀ x ∈ pre, x.isAlloc = true ∧ ∃ info, late.lookup x.bufferId = some info ∧
      (roundUp info.proto.size minBlockSize).isSome ∧ info.searched.isSome := by
    intro x hx
    have hxmem : x ∈ buildEventTimeline late := by
      rw [hsplit]
      exact List.mem_append_left _ hx
    obtain ⟨info', hj, -⟩ := mem_buildEventTimeline.mp hxmem
    have hj' := hj
    rw [hlate, lookup_relevel, Option.map_eq_some_iff] at hj'
    obtain ⟨info₀, hinfo₀, rfl⟩ := hj'
    exact ⟨hfirst x hx, _, hj, hfits _ info₀ hinfo₀⟩
  have hstart : StackInv late budget [] arenaStart :=
    ⟨fun _ _ => rfl, fun lane s hs => by cases hs⟩
  rcases stackInv_loop hbudget hstart hpost with
    ⟨p, x, q, st₁, hpre, hrun, halloc, herr⟩ | ⟨st₁, hrun, hinv⟩
  · -- an earlier one already runs out of memory
    refine ⟨p, x, q ++ last :: post, st₁, ?_, hrun, halloc, herr⟩
    rw [hsplit, hpre, List.append_assoc, List.cons_append]
  · refine ⟨pre, last, post, st₁, hsplit, hrun, rfl, ?_⟩
    obtain ⟨s, L, hs, hL, hstack⟩ := hinv.openLane info.proto.laneKey
    obtain ⟨req, hreq⟩ := Option.isSome_iff_exists.mp (hfits id info hinfo).1
    have hmax : max req s.blockSize = info.charge := by
      rw [hL.blockSize, roundUp_eq hreq]
      rfl
    have hsearch : Tlsf.searchSize s.blockSize s.l2Bits (max req s.blockSize) 1 = some want := by
      rw [hmax, hL.blockSize, hL.l2Bits]
      exact hwant
    have hpos : 0 < max req s.blockSize := by
      rw [hL.blockSize]
      exact Nat.lt_of_lt_of_le (by decide) (Nat.le_max_right _ _)
    have herr := hL.wf.alloc_eq_error hpos hsearch (by
      intro a z hfree
      have hbounds := hfree.bounds hL.wf.rep.tiles
      have hge := hstack a z hfree
      rw [List.nil_append, hlate] at hge
      omega)
    have hlane : laneAllocator budget st₁ (info.during (1, 1)).proto.laneKey = some s := hs
    have hround : roundUp (info.during (1, 1)).proto.size minBlockSize = some req := hreq
    simp only [arenaEvent, Option.bind_eq_bind, hinfo', Option.bind_some, hlane, hround, herr]
    rfl

/-! ## The budget of the planner -/

/-- The budget with which `memory_plan_arena` creates the allocator of every lane. -/
def arenaBudget (liveness : Liveness) : Option Nat := do
  let rounded ← liveness.values.mapM fun info => roundUp info.proto.size minBlockSize
  let totalBytes ← checkedSum rounded
  some (max (min (totalBytes * 2) (wordSize - 1)) minBlockSize)

/-- The bytes that the budget counts for a buffer: none when the buffer is empty. -/
def BufferLiveness.rounded (info : BufferLiveness) : Nat := ceilTo info.proto.size minBlockSize

theorem foldlM_checkedAdd {xs : List Nat} {acc total : Nat}
    (h : xs.foldlM checkedAdd acc = some total) : total = acc + xs.sum := by
  induction xs generalizing acc with
  | nil =>
    simp only [List.foldlM_nil, Option.pure_def, Option.some.injEq] at h
    rw [List.sum_nil, Nat.add_zero, h]
  | cons x xs ih =>
    simp only [List.foldlM_cons, bind_eq_some,
      checkedAdd_eq_some] at h
    obtain ⟨_, ⟨-, rfl⟩, h⟩ := h
    rw [ih h, List.sum_cons, Nat.add_assoc]

theorem mapM_roundUp {infos : List BufferLiveness} {rounded : List Nat}
    (h : infos.mapM (fun info => roundUp info.proto.size minBlockSize) = some rounded) :
    rounded = infos.map BufferLiveness.rounded ∧
      ∀ info ∈ infos, (roundUp info.proto.size minBlockSize).isSome := by
  induction infos generalizing rounded with
  | nil =>
    simp only [List.mapM_nil, Option.pure_def, Option.some.injEq] at h
    exact ⟨h.symm, fun info hmem => by cases hmem⟩
  | cons info infos ih =>
    simp only [List.mapM_cons, Option.pure_def, bind_eq_some,
      Option.some.injEq] at h
    obtain ⟨r, hr, rs, hrs, rfl⟩ := h
    obtain ⟨rfl, hall⟩ := ih hrs
    refine ⟨by rw [roundUp_eq hr]; rfl, fun x hx => ?_⟩
    rcases List.mem_cons.mp hx with rfl | hx
    · rw [hr, Option.isSome_some]
    · exact hall x hx

theorem arenaBudget_eq_some (h : arenaBudget liveness = some budget) :
    (∀ info ∈ liveness.values, (roundUp info.proto.size minBlockSize).isSome) ∧
      budget = max (min ((liveness.values.map BufferLiveness.rounded).sum * 2) (wordSize - 1))
        minBlockSize := by
  simp only [arenaBudget, bind_eq_some, Option.some.injEq] at h
  obtain ⟨rounded, hrounded, total, htotal, rfl⟩ := h
  obtain ⟨rfl, hall⟩ := mapM_roundUp hrounded
  exact ⟨hall, by rw [foldlM_checkedAdd htotal, Nat.zero_add]⟩

theorem arenaBudget_lt (h : arenaBudget liveness = some budget) : budget < wordSize := by
  rw [(arenaBudget_eq_some h).2, Nat.max_lt]
  exact ⟨(Nat.min_le_right _ _).trans_lt (by decide), by decide⟩

theorem mem_values_of_lookup {id : Nat} {info : BufferLiveness}
    (h : liveness.lookup id = some info) : info ∈ liveness.values :=
  List.mem_map.mpr ⟨⟨id, info⟩, AList.mem_lookup_iff.mp h, rfl⟩

/-- The bucket round-up at most doubles a size. -/
theorem searched_le {info : BufferLiveness} {want : Nat} (h : info.searched = some want) :
    want ≤ 2 * info.charge := by
  have hpos : minBlockSize ≤ info.charge := Nat.le_max_right _ _
  simp only [BufferLiveness.searched, Tlsf.searchSize, Option.bind_eq_bind, Option.bind_eq_some_iff,
    checkedAdd_eq_some] at h
  obtain ⟨_, ⟨-, rfl⟩, h⟩ := h
  rw [Nat.add_sub_cancel, Nat.max_eq_left hpos] at h
  split at h
  · rename_i hlt
    simp only [Option.bind_eq_some_iff, checkedAdd_eq_some, Option.some.injEq] at h
    obtain ⟨_, ⟨-, rfl⟩, rfl⟩ := h
    -- the granule is at most the leading power of two of the size
    have hgranule : 2 ^ (bitLength info.charge - bitLength 32) ≤ info.charge := by
      by_contra hover
      have hbits := bitLength_le_of_lt (Nat.lt_of_not_le hover)
      have : 0 < bitLength 32 := by decide
      omega
    have hdown := Nat.div_mul_le_self
      (info.charge + 2 ^ (bitLength info.charge - bitLength 32) - 1)
      (2 ^ (bitLength info.charge - bitLength 32))
    omega
  · simp only [Option.some.injEq] at h
    omega

theorem charge_le_laneDemand {info : BufferLiveness} (h : info ∈ liveness.values) :
    info.charge ≤ laneDemand liveness info.proto.laneKey := by
  refine List.single_le_sum (fun _ _ => Nat.zero_le _) _ ?_
  exact List.mem_map.mpr ⟨info, h, if_pos rfl⟩

/-- Without an empty buffer a lane is charged no more than the budget counts. -/
theorem laneDemand_le_rounded (hpos : ∀ info ∈ liveness.values, 0 < info.proto.size)
    (lane : LaneKey) :
    laneDemand liveness lane ≤ (liveness.values.map BufferLiveness.rounded).sum := by
  refine List.sum_le_sum fun info hinfo => ?_
  split
  · -- a size that is not zero is rounded up to one block at least
    refine Nat.max_le.mpr ⟨Nat.le_refl _, ?_⟩
    exact Nat.le_of_dvd ((hpos info hinfo).trans_le (le_ceilTo (by decide))) (dvd_ceilTo _ _)
  · exact Nat.zero_le _

/-- Without an empty buffer, and short of saturation, the factor two is enough. -/
theorem covers_of_pos (h : arenaBudget liveness = some budget)
    (hpos : ∀ info ∈ liveness.values, 0 < info.proto.size)
    (hsum : (liveness.values.map BufferLiveness.rounded).sum * 2 < wordSize) :
    Covers budget liveness := by
  intro id info want hinfo hwant
  have hmem := mem_values_of_lookup hinfo
  have hcharge := charge_le_laneDemand hmem
  have hdemand := laneDemand_le_rounded hpos info.proto.laneKey
  have hsearched := searched_le hwant
  have hbudget : (liveness.values.map BufferLiveness.rounded).sum * 2 ≤ budget := by
    rw [(arenaBudget_eq_some h).2]
    exact le_max_of_le_left (Nat.le_min.mpr ⟨Nat.le_refl _, Nat.le_sub_one_of_lt hsum⟩)
  omega

/-- No `alloc` runs out of memory, whatever the level intervals are, exactly when the budget
    covers what the allocators charge; it does when no buffer is empty and the sizes stay short
    of saturation. -/
theorem arenaBudget_suffices_iff (h : arenaBudget liveness = some budget)
    (hfits : ∀ info ∈ liveness.values, info.searched.isSome) :
    ((∀ levels, ¬ OutOfMemory budget (relevel liveness levels)) ↔ Covers budget liveness) ∧
      (Covers budget liveness → ¬ OutOfMemory budget liveness) ∧
      ((∀ info ∈ liveness.values, 0 < info.proto.size) →
        (liveness.values.map BufferLiveness.rounded).sum * 2 < wordSize →
          Covers budget liveness) := by
  have hbudget := arenaBudget_lt h
  refine ⟨⟨fun hnever => ?_, fun hcovers levels => ?_⟩, not_outOfMemory_of_covers hbudget,
    covers_of_pos h⟩
  · -- a buffer that is not covered fails when it is opened after all others
    intro id info want hinfo hwant
    by_contra hover
    refine hnever _ (outOfMemory_of_not_covers hbudget (fun j infoj hj => ?_) hinfo hwant
      (Nat.lt_of_not_le hover))
    have hmem := mem_values_of_lookup hj
    exact ⟨(arenaBudget_eq_some h).1 infoj hmem, hfits infoj hmem⟩
  · exact not_outOfMemory_of_covers hbudget ((covers_relevel levels).mpr hcovers)

/-- A host buffer of `n` bytes that is live over the levels 0 and 1. -/
def hostLiveness (id n : Nat) : BufferLiveness :=
  let buffer := Buffer.new id .cpu (.scalar .uint8) [n] ⟨false, false, false, false⟩
  ⟨0, 1, ⟨buffer.data.device, buffer.dtype, ceilTo n minBlockSize⟩, buffer⟩

/-- A buffer and an empty one, both live at once. -/
def onePair : Liveness := ⟨[⟨1, hostLiveness 1 300⟩, ⟨2, hostLiveness 2 0⟩],
  by simp [List.nodupKeys_cons]⟩

/-- The 1024 bytes of the budget cover the two blocks of the buffer and the one block of the
    empty buffer. -/
theorem arenaBudget_suffices_onePair :
    arenaBudget onePair = some 1024 ∧ ∀ levels, ¬ OutOfMemory 1024 (relevel onePair levels) := by
  have hbudget : arenaBudget onePair = some 1024 := by decide
  have hfits : ∀ info ∈ onePair.values, info.searched.isSome := by decide
  refine ⟨hbudget, (arenaBudget_suffices_iff hbudget hfits).1.mpr ?_⟩
  intro id info want hinfo hwant
  have hmem := mem_values_of_lookup hinfo
  simp only [onePair, Liveness.values, List.map_cons, List.map_nil, List.mem_cons,
    List.not_mem_nil, or_false] at hmem
  rcases hmem with rfl | rfl
  · rw [show (hostLiveness 1 300).searched = some 512 by decide, Option.some.injEq] at hwant
    subst hwant
    decide
  · rw [show (hostLiveness 2 0).searched = some 256 by decide, Option.some.injEq] at hwant
    subst hwant
    decide

/-- Two empty buffers, both live at once. -/
def emptyPair : Liveness := ⟨[⟨1, hostLiveness 1 0⟩, ⟨2, hostLiveness 2 0⟩],
  by simp [List.nodupKeys_cons]⟩

/-- The budget counts no byte for two empty buffers, so it is one block, and the first of them
    takes it. -/
theorem arenaBudget_exhausted_emptyPair :
    ¬ ∀ liveness budget, arenaBudget liveness = some budget → ¬ OutOfMemory budget liveness := by
  intro hnever
  have hrun : (((arenaLoop 256 emptyPair arenaStart [⟨0, true, 1⟩]).bind Except.toOption).bind
      fun st => (arenaEvent 256 emptyPair st ⟨0, true, 2⟩).map Except.toBool) = some false := by
    decide +kernel
  simp only [Option.bind_eq_some_iff, Option.map_eq_some_iff] at hrun
  obtain ⟨st, ⟨r, hfirst, hr⟩, r', hsecond, hr'⟩ := hrun
  refine hnever emptyPair 256 (by decide)
    ⟨[⟨0, true, 1⟩], ⟨0, true, 2⟩, [⟨2, false, 1⟩, ⟨2, false, 2⟩], st, by decide, ?_, rfl, ?_⟩
  · cases r with
    | error _ => simp [Except.toOption] at hr
    | ok st₁ =>
      simp only [Except.toOption, Option.some.injEq] at hr
      rw [hfirst, hr]
  · cases r' with
    | error _ => exact hsecond
    | ok _ => simp [Except.toBool] at hr'

end Svod.MemoryPlanner
