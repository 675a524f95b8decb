/-
  Svod.Device.ClikeKernargSound

  What `pack` writes is the struct of the C ABI.

  The packing loop places each argument at the least offset behind the one
  before it that its width divides, which is where C puts it, and writes nothing
  else.  So the struct reads back as the arguments, every `int` cut to 32 bits:
  packing keeps its promise unless a value needs more (`pack_meets_iff`).
-/

import Svod.Device.ClikeKernarg
import Svod.Device.KernargSound

namespace Svod.Device.ClikeKernarg

open Svod.Lib Svod.Lib.CStruct Svod.Device.Kernarg

variable {layout : ClikeKernargLayout} {dst : ByteBuffer} {globals : List UInt64}
  {vars : List Int64} {order : List Bool} {bytes bytes' : ℕ → UInt8} {off : ℕ}

/-! ## Offsets -/

theorem nextMultipleOf_le {n align m : ℕ} (hle : n ≤ m) (hdvd : align ∣ m) :
    nextMultipleOf n align ≤ m := by
  obtain ⟨k, rfl⟩ := hdvd
  unfold nextMultipleOf
  split
  · exact hle
  · rename_i hmod
    -- `n` lies strictly between two multiples, and the upper one is at most `align * k`
    have hdiv := Nat.div_add_mod n align
    have hlt : n / align < k := by
      by_contra hge
      have hmul := Nat.mul_le_mul_left align (Nat.le_of_not_lt hge)
      omega
    have hmul := Nat.mul_le_mul_left align (Nat.succ_le_of_lt hlt)
    rw [Nat.mul_succ] at hmul
    rcases Nat.eq_zero_or_pos align with rfl | hpos
    · omega
    · have := Nat.mod_lt n hpos
      omega

theorem nextMultipleOf_isLeast (n : ℕ) {align : ℕ} (hpos : 0 < align) :
    IsLeast {o | n ≤ o ∧ align ∣ o} (nextMultipleOf n align) :=
  ⟨⟨le_nextMultipleOf n align, dvd_nextMultipleOf n hpos⟩,
    fun _ ho => nextMultipleOf_le ho.1 ho.2⟩

theorem width_pos (storage : Bool) : 0 < width storage := by
  cases storage <;> decide

theorem le_sizeFrom (cursor : ℕ) (order : List Bool) : cursor ≤ sizeFrom cursor order := by
  induction order generalizing cursor with
  | nil => exact le_rfl
  | cons storage rest ih =>
    exact (le_nextMultipleOf cursor (width storage)).trans ((Nat.le_add_right _ _).trans (ih _))

/-! ## One argument -/

/-- An argument as the kernel sees it: an `int` is cut to 32 bits. -/
def Argument.narrow : Argument → Argument
  | .address a => .address a
  | .value v => .value (wrapSigned 32 v)

theorem readMember_congr {storage : Bool}
    (h : ∀ i, off ≤ i → i < off + width storage → bytes' i = bytes i) :
    readMember bytes' storage off = readMember bytes storage off := by
  cases storage with
  | true =>
    have hslice : slice bytes' off 8 = slice bytes off 8 := slice_congr h
    simp only [readMember, if_true, hslice]
  | false =>
    have hslice : slice bytes' off 4 = slice bytes off 4 := slice_congr h
    simp only [readMember, Bool.false_eq_true, if_false, hslice]

theorem readMember_address (address : UInt64) :
    readMember (overlay bytes off (leBytes 8 address.toNat)) true off =
      .address address.toNat := by
  have hslice := slice_overlay bytes off (leBytes 8 address.toNat)
  rw [leBytes_length] at hslice
  simp only [readMember, if_true]
  rw [hslice, leValue_leBytes, show (256 : ℕ) ^ 8 = 2 ^ 64 by decide,
    Nat.mod_eq_of_lt address.toNat_lt]

theorem readMember_value (v : Int64) :
    readMember (overlay bytes off (i32LeBytes (asI32 v))) false off =
      .value (wrapSigned 32 v.toInt) := by
  have hslice := slice_overlay bytes off (i32LeBytes (asI32 v))
  have hnonneg := wrapUnsigned_nonneg 32 (asI32 v)
  have hlt := wrapUnsigned_lt 32 (asI32 v)
  have hval : leValue (i32LeBytes (asI32 v)) = (wrapUnsigned 32 (asI32 v)).toNat := by
    rw [i32LeBytes, leValue_leBytes, Nat.mod_eq_of_lt (by omega)]
  rw [i32LeBytes, leBytes_length, ← i32LeBytes] at hslice
  simp only [readMember, Bool.false_eq_true, if_false]
  rw [hslice, hval, Int.toNat_of_nonneg hnonneg, wrapSigned_wrapUnsigned, asI32,
    show wrapSigned 32 (wrapSigned 32 v.toInt) = wrapSigned 32 v.toInt from
      wrapSigned_congr (by rw [← Int.dvd_neg, Int.neg_sub]; exact dvd_sub_wrapSigned 32 v.toInt)]

/-- The next argument, as the loop writes it. -/
structure Stepped (globals : List UInt64) (vars : List Int64) (s s' : PackState) (storage : Bool)
    (arg : Argument) : Prop where
  step : packStep globals vars s storage = some s'
  cursor : s'.cursor = nextMultipleOf s.cursor (width storage) + width storage
  len : s'.dst.len = s.dst.len
  global : s'.global = s.global + if storage then 1 else 0
  var : s'.var = s.var + if storage then 0 else 1
  reads : readMember s'.dst.get storage (nextMultipleOf s.cursor (width storage)) = arg.narrow
  keeps : ∀ i, i < nextMultipleOf s.cursor (width storage) ∨ s'.cursor ≤ i →
    s'.dst.get i = s.dst.get i

variable (vars) in
theorem packStep_storage {s : PackState} {address : UInt64}
    (harg : globals[s.global]? = some address)
    (hfit : nextMultipleOf s.cursor 8 + 8 ≤ s.dst.len) :
    ∃ s', Stepped globals vars s s' true (.address address.toNat) := by
  have hlen : (leBytes 8 address.toNat).length = 8 := leBytes_length _ _
  refine ⟨{
      dst := ⟨s.dst.len, overlay s.dst.get (nextMultipleOf s.cursor 8) (leBytes 8 address.toNat)⟩
      global := s.global + 1
      var := s.var
      cursor := nextMultipleOf s.cursor 8 + 8 },
    { step := ?_, cursor := rfl, len := rfl, global := rfl, var := rfl
      reads := readMember_address address, keeps := fun i hi => ?_ }⟩
  · rw [packStep, if_pos rfl, harg]
    simp only [Option.bind_eq_bind, Option.bind_some]
    rw [ByteBuffer.write_of_le (by rwa [hlen]), Option.bind_some]
  · exact overlay_of_disjoint (by rwa [hlen])

variable (globals) in
theorem packStep_scalar {s : PackState} {v : Int64} (harg : vars[s.var]? = some v)
    (hfit : nextMultipleOf s.cursor 4 + 4 ≤ s.dst.len) :
    ∃ s', Stepped globals vars s s' false (.value v.toInt) := by
  have hlen : (i32LeBytes (asI32 v)).length = 4 := leBytes_length _ _
  refine ⟨{
      dst := ⟨s.dst.len, overlay s.dst.get (nextMultipleOf s.cursor 4) (i32LeBytes (asI32 v))⟩
      global := s.global
      var := s.var + 1
      cursor := nextMultipleOf s.cursor 4 + 4 },
    { step := ?_, cursor := rfl, len := rfl, global := rfl, var := rfl
      reads := readMember_value v, keeps := fun i hi => ?_ }⟩
  · rw [packStep, if_neg Bool.false_ne_true, harg]
    simp only [Option.bind_eq_bind, Option.bind_some]
    rw [ByteBuffer.write_of_le (by rwa [hlen]), Option.bind_some]
  · exact overlay_of_disjoint (by rwa [hlen])

/-! ## All arguments -/

/-- The parameters of `order`, as the loop packs them from state `s` on. -/
structure Packed (globals : List UInt64) (vars : List Int64) (s s' : PackState)
    (order : List Bool) (offs : List ℕ) (args : List Argument) : Prop where
  run : order.foldlM (packStep globals vars) s = some s'
  cursor : s'.cursor = sizeFrom s.cursor order
  laid : Laid s.cursor (order.map member) offs s'.cursor
  len : s'.dst.len = s.dst.len
  reads : readStruct s'.dst.get order offs = args.map Argument.narrow
  keeps : ∀ i, ¬ Holds (order.map member) offs i → s'.dst.get i = s.dst.get i

theorem Packed.cons {s s₁ s' : PackState} {storage : Bool} {arg : Argument} {offs : List ℕ}
    {args : List Argument} (hstep : Stepped globals vars s s₁ storage arg)
    (hrest : Packed globals vars s₁ s' order offs args) :
    Packed globals vars s s' (storage :: order)
      (nextMultipleOf s.cursor (width storage) :: offs) (arg :: args) where
  run := by
    rw [List.foldlM_cons, hstep.step]
    exact hrest.run
  cursor := by
    rw [hrest.cursor, hstep.cursor]
    rfl
  laid := by
    refine .cons (nextMultipleOf_isLeast s.cursor (width_pos storage)) ?_
    have hlaid := hrest.laid
    rwa [hstep.cursor] at hlaid
  len := hrest.len.trans hstep.len
  reads := by
    -- the rest lies behind this argument, so it is still there at the end
    have hfirst : readMember s'.dst.get storage (nextMultipleOf s.cursor (width storage)) =
        readMember s₁.dst.get storage (nextMultipleOf s.cursor (width storage)) :=
      readMember_congr fun i _ hi =>
        hrest.keeps i (not_holds_of_lt hrest.laid (by rwa [hstep.cursor]))
    rw [readStruct, List.zipWith_cons_cons, hfirst, hstep.reads, List.map_cons]
    exact congrArg _ hrest.reads
  keeps i hi := by
    rw [List.map_cons, holds_cons, not_or] at hi
    have hout : i < nextMultipleOf s.cursor (width storage) ∨ s₁.cursor ≤ i := by
      rw [hstep.cursor]
      have hsize : (member storage).size = width storage := rfl
      rw [hsize] at hi
      omega
    rw [hrest.keeps i hi.2, hstep.keeps i hout]

theorem drop_eq_cons {α : Type} {xs : List α} {n k : ℕ} (h : (xs.drop n).length = k + 1) :
    ∃ x, xs[n]? = some x ∧ xs.drop n = x :: xs.drop (n + 1) := by
  have hlt : n < xs.length := by
    rw [List.length_drop] at h
    omega
  exact ⟨xs[n], List.getElem?_eq_getElem hlt, List.drop_eq_getElem_cons hlt⟩

variable (globals vars) in
/-- With an argument for each parameter and room for the record, the loop packs all of them. -/
theorem packLoop_spec (order : List Bool) (s : PackState)
    (hglobals : (globals.drop s.global).length = order.count true)
    (hvars : (vars.drop s.var).length = order.count false)
    (hfit : sizeFrom s.cursor order ≤ s.dst.len) :
    ∃ s' offs, Packed globals vars s s' order offs
      (arguments order (globals.drop s.global) (vars.drop s.var)) := by
  induction order generalizing s with
  | nil =>
    exact ⟨s, [], { run := rfl, cursor := rfl, laid := .nil _, len := rfl, reads := rfl
                    keeps := fun _ _ => rfl }⟩
  | cons storage rest ih =>
    have hroom : nextMultipleOf s.cursor (width storage) + width storage ≤ s.dst.len :=
      (le_sizeFrom _ rest).trans hfit
    cases storage with
    | true =>
      rw [List.count_cons_self] at hglobals
      rw [List.count_cons_of_ne (by decide)] at hvars
      obtain ⟨g, hg, hdrop⟩ := drop_eq_cons hglobals
      obtain ⟨s₁, hstep⟩ := packStep_storage vars hg hroom
      have hglobal : s₁.global = s.global + 1 := hstep.global
      have hvar : s₁.var = s.var := hstep.var
      obtain ⟨s', offs, hrest⟩ := ih s₁
        (by rw [hglobal]; rw [hdrop, List.length_cons] at hglobals; omega)
        (by rw [hvar, hvars]) (by rw [hstep.cursor, hstep.len]; exact hfit)
      rw [hglobal, hvar] at hrest
      rw [hdrop]
      exact ⟨s', _, hrest.cons hstep⟩
    | false =>
      rw [List.count_cons_of_ne (by decide)] at hglobals
      rw [List.count_cons_self] at hvars
      obtain ⟨v, hv, hdrop⟩ := drop_eq_cons hvars
      obtain ⟨s₁, hstep⟩ := packStep_scalar globals hv hroom
      have hglobal : s₁.global = s.global := hstep.global
      have hvar : s₁.var = s.var + 1 := hstep.var
      obtain ⟨s', offs, hrest⟩ := ih s₁ (by rw [hglobal, hglobals])
        (by rw [hvar]; rw [hdrop, List.length_cons] at hvars; omega)
        (by rw [hstep.cursor, hstep.len]; exact hfit)
      rw [hglobal, hvar] at hrest
      rw [hdrop]
      have hargs : arguments (false :: rest) (globals.drop s.global) (v :: vars.drop (s.var + 1)) =
          .value v.toInt :: arguments rest (globals.drop s.global) (vars.drop (s.var + 1)) := by
        cases globals.drop s.global <;> rfl
      rw [hargs]
      exact ⟨s', _, hrest.cons hstep⟩

/-! ## The record -/

/-- Packing succeeds where the arguments are as many as the parameters and the destination has
    room, with every value cut to 32 bits. -/
theorem pack_ok (hcounts : CountsMatch layout globals vars) (hroom : layout.packedSize ≤ dst.len) :
    ∃ after, layout.pack dst globals vars = some (.ok layout.packedSize, after) ∧
      Holding layout.storageOrder
        ((arguments layout.storageOrder globals vars).map Argument.narrow) dst after
        layout.packedSize := by
  have hzero : fillZero dst layout.packedSize =
      some ⟨dst.len, overlay dst.get 0 (List.replicate layout.packedSize 0)⟩ :=
    ByteBuffer.write_of_le (by rwa [List.length_replicate, Nat.zero_add])
  obtain ⟨s', offs, hpacked⟩ := packLoop_spec globals vars layout.storageOrder
    ⟨⟨dst.len, overlay dst.get 0 (List.replicate layout.packedSize 0)⟩, 0, 0, 0⟩
    (by rw [List.drop_zero, hcounts.1, layout.globals_eq])
    (by rw [List.drop_zero, hcounts.2, layout.vars_eq]) hroom
  have hcursor : s'.cursor = layout.packedSize := hpacked.cursor
  have hlaid : Laid 0 (layout.storageOrder.map member) offs layout.packedSize := by
    rw [← hcursor]
    exact hpacked.laid
  refine ⟨s'.dst, ?_, offs, hlaid, hpacked.len, hlaid.disjoint, hpacked.reads, ?_, ?_⟩
  · rw [ClikeKernargLayout.pack, if_neg (by rw [hcounts.1, hcounts.2]; simp),
      if_neg (Nat.not_lt.mpr hroom), hzero]
    simp only [Option.bind_eq_bind, Option.bind_some]
    rw [hpacked.run, Option.bind_some, hcursor]
  · intro i hi hpad
    rw [hpacked.keeps i hpad]
    simp [overlay, hi]
  · intro i hi
    rw [hpacked.keeps i (not_holds_of_le hlaid hi)]
    exact overlay_of_disjoint (Or.inr (by rwa [List.length_replicate, Nat.zero_add]))

/-- Where packing refuses, the destination is as it was. -/
theorem pack_error (h : ¬ (CountsMatch layout globals vars ∧ layout.packedSize ≤ dst.len)) :
    ∃ e, layout.pack dst globals vars = some (.error e, dst) := by
  rw [ClikeKernargLayout.pack]
  by_cases hcounts : CountsMatch layout globals vars
  · have hroom : dst.len < layout.packedSize := by
      by_contra hge
      exact h ⟨hcounts, Nat.le_of_not_lt hge⟩
    rw [if_neg (by rw [hcounts.1, hcounts.2]; simp), if_pos hroom]
    exact ⟨_, rfl⟩
  · rw [if_pos (by rwa [CountsMatch, not_and_or] at hcounts)]
    exact ⟨_, rfl⟩

theorem wrapSigned_of_fitsI32 {v : Int64} (h : FitsI32 v) : wrapSigned 32 v.toInt = v.toInt :=
  wrapSigned_of_bounds (by decide) h.1 h.2

theorem narrow_arguments (hfits : ∀ v ∈ vars, FitsI32 v) :
    (arguments order globals vars).map Argument.narrow = arguments order globals vars := by
  induction order generalizing globals vars with
  | nil => rfl
  | cons storage rest ih =>
    cases storage with
    | true =>
      cases globals with
      | nil => rfl
      | cons g globals =>
        rw [arguments, List.map_cons, ih hfits]
        rfl
    | false =>
      cases vars with
      | nil => cases globals <;> rfl
      | cons v vars =>
        rw [arguments, List.map_cons, ih fun w hw => hfits w (List.mem_cons_of_mem _ hw),
          Argument.narrow, wrapSigned_of_fitsI32 (hfits v (by simp))]

/-- Packing keeps its promise for every layout, destination and argument lists, unless it succeeds
    with a value that does not fit an `int`. -/
theorem pack_meets_iff (layout : ClikeKernargLayout) (dst : ByteBuffer) (globals : List UInt64)
    (vars : List Int64) :
    PackMeets layout dst globals vars ↔
      (CountsMatch layout globals vars → layout.packedSize ≤ dst.len → ∀ v ∈ vars, FitsI32 v) := by
  unfold PackMeets
  constructor
  · intro hmeets hcounts hroom
    by_contra hfits
    rw [if_neg (fun h => hfits h.2.2)] at hmeets
    obtain ⟨e, he⟩ := hmeets
    obtain ⟨after, hok, -⟩ := pack_ok hcounts hroom
    rw [he] at hok
    simp at hok
  · intro hcond
    split
    · rename_i hall
      obtain ⟨after, hok, hholds⟩ := pack_ok hall.1 hall.2.1
      rw [narrow_arguments hall.2.2] at hholds
      exact ⟨after, hok, hholds⟩
    · rename_i hnot
      exact pack_error fun h => hnot ⟨h.1, h.2, hcond h.1 h.2⟩

/-- A kernel of one buffer and one variable. -/
def bufferAndVar : ClikeKernargLayout := .fromAbi [.storage, .scalar]

/-- A variable of `2 ^ 32 + 7` is packed as 7, without an error. -/
theorem pack_truncates :
    (bufferAndVar.pack (.zeroed 16) [4096] [4294967303]).map
        (fun r => (r.1, readStruct r.2.get [true, false] [0, 8])) =
      some (.ok 12, [.address 4096, .value 7]) ∧
    ¬ PackMeets bufferAndVar (.zeroed 16) [4096] [4294967303] := by
  refine ⟨by decide +kernel, ?_⟩
  have hcounts : CountsMatch bufferAndVar [4096] [4294967303] := by decide
  obtain ⟨after, hok, -⟩ := pack_ok hcounts
    (show bufferAndVar.packedSize ≤ (ByteBuffer.zeroed 16).len by decide)
  have hwide : ¬ FitsI32 4294967303 := by decide
  rw [PackMeets, if_neg fun h => hwide (h.2.2 _ (List.mem_singleton.mpr rfl))]
  rintro ⟨e, he⟩
  rw [he] at hok
  simp at hok

end Svod.Device.ClikeKernarg
