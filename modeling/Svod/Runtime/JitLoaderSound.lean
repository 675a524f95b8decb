/-
  Svod.Runtime.JitLoaderSound

  Direct branches of a loaded object land on their targets exactly when the
  plan of the object stays within the slots that were counted, and on aarch64
  every displacement is encodable.

  A relocation writes what it asks for, or takes a veneer.  The loader follows
  the plan: its sections are those of the plan, and the veneer of the `i`-th
  destination stands in the `i`-th slot, as long as there is a slot.
-/

import Svod.Runtime.JitLoaderSpec
import Svod.Lib.Fallible

namespace Svod.Runtime.JitLoader

open Svod.Lib

variable {arch : Arch} {base : ℤ} {resolve : String → Option ℤ} {obj : ObjectFile}
variable {s : Section} {off : ℕ} {image image' : ℕ → UInt8} {r : Relocation}
  {rType : RelocationType}

/-! ## The places of sections -/

theorem le_alignUp (total : ℕ) {align : ℕ} (h : 1 ≤ align) : total ≤ alignUp total align := by
  have hle : (total + align - 1) &&& (align - 1) ≤ align - 1 := Nat.and_le_right
  unfold alignUp
  omega

/-- The sections that are placed so far, one after the other. -/
structure Layout.Placed (l : Layout) (done : List Section) : Prop where
  found : ∀ s ∈ done, s.loadable → ∃ off, l.offsetOf s.index = some off
  within : ∀ s ∈ done, ∀ off, l.offsetOf s.index = some off → off + s.size ≤ l.total
  only : ∀ i off, l.offsetOf i = some off → ∃ s ∈ done, s.loadable ∧ s.index = i
  ordered : done.Pairwise fun s s' => ∀ off off', l.offsetOf s.index = some off →
    l.offsetOf s'.index = some off' → off + s.size ≤ off'

theorem Layout.Placed.nil : Layout.Placed ⟨[], 0⟩ [] where
  found := fun _ h => absurd h List.not_mem_nil
  within := fun _ h => absurd h List.not_mem_nil
  only := fun _ _ h => by cases h
  ordered := List.Pairwise.nil

theorem Layout.offsetOf_snoc (l : Layout) (hnone : l.offsetOf s.index = none) (off total i : ℕ) :
    (⟨l.offsets ++ [(s.index, off)], total⟩ : Layout).offsetOf i =
      if i = s.index then some off else l.offsetOf i := by
  simp only [Layout.offsetOf, List.lookup_append, List.lookup_cons, List.lookup_nil] at hnone ⊢
  by_cases hi : i = s.index
  · rw [hi, hnone]
    simp
  · rw [if_neg hi, beq_eq_false_iff_ne.mpr hi]
    exact Option.or_none

theorem Layout.Placed.place {l : Layout} {done : List Section} (h : l.Placed done) {s : Section}
    (hfresh : s.index ∉ done.map (·.index)) : (l.place s).Placed (done ++ [s]) := by
  have hnone : l.offsetOf s.index = none := by
    rcases hoff : l.offsetOf s.index with _ | off
    · rfl
    · obtain ⟨s', hmem, -, hidx⟩ := h.only _ _ hoff
      exact absurd (List.mem_map.mpr ⟨s', hmem, hidx⟩) hfresh
  have hne : ∀ t ∈ done, t.index ≠ s.index := fun t ht heq =>
    hfresh (List.mem_map.mpr ⟨t, ht, heq⟩)
  unfold Layout.place
  split
  · next hload =>
    have hle : l.total ≤ alignUp l.total (max s.align 1) := le_alignUp _ (le_max_right _ _)
    have hoff := Layout.offsetOf_snoc l hnone (alignUp l.total (max s.align 1))
      (alignUp l.total (max s.align 1) + s.size)
    have hold : ∀ t ∈ done, _ := fun t ht => (hoff t.index).trans (if_neg (hne t ht))
    have hnew := (hoff s.index).trans (if_pos rfl)
    refine ⟨fun t ht hl => ?_, fun t ht o ho => ?_, fun i o ho => ?_,
      List.pairwise_append.mpr ⟨?_, List.pairwise_singleton _ _, fun t ht t' ht' o o' ho ho' => ?_⟩⟩
    · rcases List.mem_append.mp ht with ht | ht
      · rw [hold t ht]
        exact h.found t ht hl
      · rw [List.mem_singleton.mp ht]
        exact ⟨_, hnew⟩
    · rcases List.mem_append.mp ht with ht | ht
      · rw [hold t ht] at ho
        exact (h.within t ht o ho).trans (hle.trans (Nat.le_add_right _ _))
      · rw [List.mem_singleton.mp ht, hnew] at ho
        cases ho
        rw [List.mem_singleton.mp ht]
    · rw [hoff] at ho
      split at ho
      · next hi => exact ⟨s, by simp, hload, hi.symm⟩
      · obtain ⟨t, ht, hl, hidx⟩ := h.only _ _ ho
        exact ⟨t, List.mem_append_left _ ht, hl, hidx⟩
    · refine List.Pairwise.imp_of_mem ?_ h.ordered
      intro t t' ht ht' hR o o' ho ho'
      rw [hold t ht] at ho
      rw [hold t' ht'] at ho'
      exact hR o o' ho ho'
    · rw [hold t ht] at ho
      rw [List.mem_singleton.mp ht', hnew] at ho'
      cases ho'
      exact (h.within t ht o ho).trans hle
  · next hload =>
    -- a section that is not loadable has no place
    refine ⟨fun t ht hl => ?_, fun t ht o ho => ?_, fun i o ho => ?_,
      List.pairwise_append.mpr ⟨h.ordered, List.pairwise_singleton _ _,
        fun t _ t' ht' o o' _ ho' => ?_⟩⟩
    · rcases List.mem_append.mp ht with ht | ht
      · exact h.found t ht hl
      · rw [List.mem_singleton.mp ht] at hl
        exact absurd hl hload
    · rcases List.mem_append.mp ht with ht | ht
      · exact h.within t ht o ho
      · rw [List.mem_singleton.mp ht, hnone] at ho
        cases ho
    · obtain ⟨t, ht, hl, hidx⟩ := h.only _ _ ho
      exact ⟨t, List.mem_append_left _ ht, hl, hidx⟩
    · rw [List.mem_singleton.mp ht', hnone] at ho'
      cases ho'

theorem layout_placed {sections : List Section} (h : (sections.map (·.index)).Nodup) :
    (layout sections).Placed sections := by
  induction sections using List.reverseRecOn with
  | nil => exact Layout.Placed.nil
  | append_singleton done s ih =>
    rw [List.map_append, List.nodup_append] at h
    rw [layout, List.foldl_append]
    refine (ih h.1).place fun hmem => ?_
    exact h.2.2 _ hmem _ (List.mem_singleton_self _) rfl

/-! ## The sections in the mapping -/

theorem le_veneerBase (obj : ObjectFile) : (layout obj.sections).total ≤ veneerBase obj :=
  Checked.le_ceilTo (by decide)

theorem orPanic_ok {α : Type} (a : α) : orPanic (some a) = .ok a := rfl

/-- Copying sections fills their places and nothing else. -/
theorem populate_spec {l : Layout} (rest : List Section) {m : ByteBuffer}
    (hfit : ∀ s ∈ rest, ∀ off, l.offsetOf s.index = some off → off + s.data.length ≤ m.len)
    (hord : rest.Pairwise fun s s' => ∀ off off', l.offsetOf s.index = some off →
      l.offsetOf s'.index = some off' → off + s.data.length ≤ off') :
    ∃ m', populate l m rest = .ok m' ∧ m'.len = m.len ∧
      (∀ i, (∀ s ∈ rest, ∀ off, l.offsetOf s.index = some off →
        i < off ∨ off + s.data.length ≤ i) → m'.get i = m.get i) ∧
      ∀ s ∈ rest, ∀ off, l.offsetOf s.index = some off →
        slice m'.get off s.data.length = s.data := by
  induction rest generalizing m with
  | nil => exact ⟨m, rfl, rfl, fun _ _ => rfl, fun _ h => absurd h List.not_mem_nil⟩
  | cons s rest ih =>
    obtain ⟨hhead, htail⟩ := List.pairwise_cons.mp hord
    have hfit' := fun t ht => hfit t (List.mem_cons_of_mem s ht)
    rcases hoff : l.offsetOf s.index with _ | off
    · obtain ⟨m', hpop, hlen, hframe, hcopy⟩ := ih hfit' htail
      refine ⟨m', ?_, hlen, fun i hi => hframe i fun t ht => hi t (List.mem_cons_of_mem s ht), ?_⟩
      · rw [populate, copySection, hoff]
        exact hpop
      · intro t ht o ho
        rcases List.mem_cons.mp ht with rfl | ht
        · rw [hoff] at ho
          cases ho
        · exact hcopy t ht o ho
    · have hs := hfit s List.mem_cons_self off hoff
      obtain ⟨m', hpop, hlen, hframe, hcopy⟩ :=
        ih (m := ⟨m.len, overlay m.get off s.data⟩) hfit' htail
      refine ⟨m', ?_, hlen, fun i hi => ?_, fun t ht o ho => ?_⟩
      · rw [populate, copySection, hoff]
        simp only [ByteBuffer.write_of_le hs, orPanic_ok]
        exact hpop
      · rw [hframe i fun t ht => hi t (List.mem_cons_of_mem s ht)]
        exact overlay_of_disjoint (hi s List.mem_cons_self off hoff)
      · rcases List.mem_cons.mp ht with rfl | ht
        · rw [hoff] at ho
          cases ho
          -- the sections behind this one leave it alone
          refine (slice_congr fun i hlo hhi => ?_).trans (slice_overlay m.get off t.data)
          refine hframe i fun t' ht' o' ho' => Or.inl ?_
          have := hhead t' ht' off o' hoff ho'
          omega
        · exact hcopy t ht o ho

/-- A section and its place. -/
structure PlacedAt (obj : ObjectFile) (s : Section) (off : ℕ) : Prop where
  mem : s ∈ obj.sections
  loadable : s.loadable
  place : (layout obj.sections).offsetOf s.index = some off

namespace ObjectFile.WellFormed

variable (hobj : obj.WellFormed arch)

include hobj

theorem loadable_of_placed (hs : s ∈ obj.sections)
    (hoff : (layout obj.sections).offsetOf s.index = some off) : s.loadable := by
  obtain ⟨t, ht, hl, hidx⟩ := (layout_placed hobj.index).only _ _ hoff
  rwa [← List.inj_on_of_nodup_map hobj.index ht hs hidx]

theorem placed_within (h : PlacedAt obj s off) : off + s.size ≤ (layout obj.sections).total :=
  (layout_placed hobj.index).within s h.mem off h.place

/-- Sections do not overlap. -/
theorem placed_apart {s s' : Section} {off off' : ℕ} (h : PlacedAt obj s off)
    (h' : PlacedAt obj s' off') (hne : s ≠ s') : off + s.size ≤ off' ∨ off' + s'.size ≤ off := by
  have hord := (layout_placed hobj.index).ordered
  obtain ⟨before, after, hsplit⟩ := List.append_of_mem h.mem
  conv at hord => rhs; rw [hsplit]
  rw [List.pairwise_append, List.pairwise_cons] at hord
  have hmem := h'.mem
  rw [hsplit, List.mem_append, List.mem_cons] at hmem
  rcases hmem with hb | heq | ha
  · exact Or.inr (hord.2.2 s' hb s List.mem_cons_self off' off h'.place h.place)
  · exact absurd heq.symm hne
  · exact Or.inl (hord.2.1.1 s' ha off off' h.place h'.place)

/-- Loading succeeds and copies every section. -/
theorem loaded_ok : ∃ m, loaded arch obj = .ok m ∧ m.len = mappingLen arch obj ∧
    ∀ s off, PlacedAt obj s off → slice m.get off s.data.length = s.data := by
  have hplaced := layout_placed hobj.index
  have hlen : ∀ s ∈ obj.sections, ∀ off, (layout obj.sections).offsetOf s.index = some off →
      s.data.length = s.size :=
    fun s hs off hoff => hobj.size s hs (hobj.loadable_of_placed hs hoff)
  obtain ⟨m, hm, hmlen, -, hcopy⟩ := populate_spec (l := layout obj.sections)
    (m := .zeroed (mappingLen arch obj)) obj.sections
    (fun s hs off hoff => by
      have hw := hplaced.within s hs off hoff
      have hv := le_veneerBase obj
      rw [hlen s hs off hoff]
      show off + s.size ≤ veneerBase obj + _
      omega)
    (List.Pairwise.imp_of_mem (fun hs _ h o o' ho ho' => by
      rw [hlen _ hs o ho]
      exact h o o' ho ho') hplaced.ordered)
  exact ⟨m, hm, hmlen, fun s off h => hcopy s h.mem off h.place⟩

end ObjectFile.WellFormed

theorem slice_eq_get {bytes : ℕ → UInt8} {data : List UInt8}
    (h : slice bytes off data.length = data) {i : ℕ} (hi : i < data.length) :
    bytes (off + i) = data.getD i 0 := by
  have hget : (slice bytes off data.length)[i]? = data[i]? := by rw [h]
  rw [List.getD_eq_getElem?_getD, ← hget, slice, List.getElem?_ofFn, dif_pos hi, Option.getD_some]

/-- The instruction of a field is that of the section, wherever the section stands. -/
theorem isBranchInsn_shift {off r : ℕ}
    (h : ∀ i, insnStart arch r ≤ i → i < r + 4 → image (off + i) = image' i)
    (hr : arch = .x86_64 → r ≠ 0) :
    isBranchInsn arch image (off + r) ↔ isBranchInsn arch image' r := by
  cases arch with
  | x86_64 =>
    have hr := hr rfl
    have h1 : image (off + r - 1) = image' (r - 1) := by
      rw [show off + r - 1 = off + (r - 1) by omega]
      exact h _ le_rfl (by omega)
    simp only [isBranchInsn, h1]
    constructor
    · exact fun hb => ⟨hr, hb.2⟩
    · exact fun hb => ⟨by omega, hb.2⟩
  | aarch64 =>
    have hword : insnAt image (off + r) = insnAt image' r := by
      unfold insnAt slice
      apply congrArg
      apply congrArg
      funext i
      rw [Nat.add_assoc]
      exact h _ (Nat.le_add_right _ _) (by omega)
    simp only [isBranchInsn, hword]

theorem Relocation.IsBranch.width {s : Section} {r : Relocation} (h : r.IsBranch arch s) :
    r.width = 4 := by
  obtain ⟨⟨rType, hflags, htype⟩, -⟩ := h
  unfold Relocation.width
  rw [hflags]
  cases arch <;> cases rType <;> first | rfl | exact absurd htype (by decide)

theorem Relocation.IsBranch.offset_ne (h : r.IsBranch arch s) (harch : arch = .x86_64) :
    r.offset ≠ 0 := by
  subst harch
  exact h.2.1

theorem insnStart_le (arch : Arch) (off : ℕ) : insnStart arch off ≤ off := by
  cases arch
  · exact Nat.sub_le _ _
  · exact le_rfl

theorem insnStart_add (arch : Arch) (off : ℕ) {r : ℕ} (hr : arch = .x86_64 → r ≠ 0) :
    insnStart arch (off + r) = off + insnStart arch r := by
  cases arch with
  | x86_64 =>
    have := hr rfl
    show off + r - 1 = off + (r - 1)
    omega
  | aarch64 => rfl

/-! ## The places of relocations -/

theorem sectionSites_of_placed (h : PlacedAt obj s off) :
    sectionSites (layout obj.sections) s = s.relocations.map fun r => ⟨off + r.offset, r⟩ := by
  unfold sectionSites
  rw [if_pos h.loadable, h.place]

theorem mem_sectionSites (hs : s ∈ obj.sections) {x : Site}
    (hx : x ∈ sectionSites (layout obj.sections) s) :
    ∃ off, PlacedAt obj s off ∧ ∃ r ∈ s.relocations, x = ⟨off + r.offset, r⟩ := by
  unfold sectionSites at hx
  split at hx
  · next hl =>
    rcases hoff : (layout obj.sections).offsetOf s.index with _ | off
    · rw [hoff] at hx
      cases hx
    · rw [hoff] at hx
      obtain ⟨r, hr, rfl⟩ := List.mem_map.mp hx
      exact ⟨off, ⟨hs, hl, hoff⟩, r, hr, rfl⟩
  · cases hx

theorem mem_sites {x : Site} : x ∈ sites obj ↔
    ∃ s off, PlacedAt obj s off ∧ ∃ r ∈ s.relocations, x = ⟨off + r.offset, r⟩ := by
  constructor
  · intro h
    obtain ⟨s, hs, hx⟩ := List.mem_flatMap.mp h
    obtain ⟨off, hp, hr⟩ := mem_sectionSites hs hx
    exact ⟨s, off, hp, hr⟩
  · rintro ⟨s, off, hp, r, hr, rfl⟩
    refine List.mem_flatMap.mpr ⟨s, hp.mem, ?_⟩
    rw [sectionSites_of_placed hp]
    exact List.mem_map_of_mem hr

/-- A place whose field lies in the sections. -/
def Site.Within (obj : ObjectFile) (x : Site) : Prop :=
  x.off + x.reloc.width ≤ (layout obj.sections).total

theorem sites_within (hobj : obj.WellFormed arch) {x : Site} (hx : x ∈ sites obj) :
    x.Within obj := by
  obtain ⟨s, off, hp, r, hr, rfl⟩ := mem_sites.mp hx
  have hfield := hobj.field s hp.mem hp.loadable r hr
  have hin := hobj.placed_within hp
  show off + r.offset + r.width ≤ _
  omega

/-- A place that leaves an instruction alone. -/
def Site.Spares (arch : Arch) (off : ℕ) (x : Site) : Prop :=
  x.off + x.reloc.width ≤ insnStart arch off ∨ off + 4 ≤ x.off

/-- The other relocations leave the instruction of a branch alone. -/
theorem sites_split (hobj : obj.WellFormed arch) (hp : PlacedAt obj s off)
    (hr : r ∈ s.relocations) (hb : r.IsBranch arch s) :
    ∃ before after, sites obj = before ++ ⟨off + r.offset, r⟩ :: after ∧
      ∀ x ∈ before ++ after, x.Spares arch (off + r.offset) := by
  have hfield := hobj.field s hp.mem hp.loadable r hr
  rw [hb.width] at hfield
  have hstart := insnStart_add arch off hb.offset_ne
  -- relocations of other sections
  have hother : ∀ t ∈ obj.sections, t ≠ s → ∀ x ∈ sectionSites (layout obj.sections) t,
      x.Spares arch (off + r.offset) := by
    intro t ht hne x hx
    obtain ⟨o, hpo, r', hr', rfl⟩ := mem_sectionSites ht hx
    have hfield' := hobj.field t ht hpo.loadable r' hr'
    unfold Site.Spares
    rw [hstart]
    rcases hobj.placed_apart hpo hp hne with h | h
    · left
      show o + r'.offset + r'.width ≤ _
      omega
    · right
      show _ ≤ o + r'.offset
      omega
  obtain ⟨before, after, hsplit⟩ := List.append_of_mem hp.mem
  obtain ⟨front, back, hsplit'⟩ := List.append_of_mem hr
  have hnodup := hobj.index
  rw [hsplit, List.map_append, List.map_cons, List.nodup_append, List.nodup_cons] at hnodup
  have hbefore : ∀ t ∈ before, t ≠ s := by
    rintro t ht rfl
    exact hnodup.2.2 _ (List.mem_map_of_mem ht) _ List.mem_cons_self rfl
  have hafter : ∀ t ∈ after, t ≠ s := by
    rintro t ht rfl
    exact hnodup.2.1.1 (List.mem_map_of_mem ht)
  have hpair := hobj.apart s hp.mem hp.loadable
  rw [hsplit', List.pairwise_append, List.pairwise_cons] at hpair
  -- relocations of the same section
  have hsame : ∀ r' ∈ front ++ back,
      Site.Spares arch (off + r.offset) ⟨off + r'.offset, r'⟩ := by
    intro r' hr'
    have hsp : r'.offset + r'.width ≤ insnStart arch r.offset ∨ r.offset + 4 ≤ r'.offset := by
      rcases List.mem_append.mp hr' with h | h
      · exact (hpair.2.2 r' h r List.mem_cons_self).2 hb
      · exact (hpair.2.1.1 r' h).1 hb
    unfold Site.Spares
    rw [hstart]
    show off + r'.offset + r'.width ≤ _ ∨ _ ≤ off + r'.offset
    omega
  refine ⟨before.flatMap (sectionSites (layout obj.sections)) ++
    front.map (fun r => ⟨off + r.offset, r⟩), back.map (fun r => ⟨off + r.offset, r⟩) ++
    after.flatMap (sectionSites (layout obj.sections)), ?_, ?_⟩
  · unfold sites
    rw [hsplit, List.flatMap_append, List.flatMap_cons, ← hsplit, sectionSites_of_placed hp,
      hsplit']
    simp
  · intro x hx
    rw [List.mem_append, List.mem_append, List.mem_append] at hx
    rcases hx with (hx | hx) | (hx | hx)
    · obtain ⟨t, ht, hx⟩ := List.mem_flatMap.mp hx
      exact hother t (by rw [hsplit]; simp [ht]) (hbefore t ht) x hx
    · obtain ⟨r', hr', rfl⟩ := List.mem_map.mp hx
      exact hsame r' (List.mem_append_left _ hr')
    · obtain ⟨r', hr', rfl⟩ := List.mem_map.mp hx
      exact hsame r' (List.mem_append_right _ hr')
    · obtain ⟨t, ht, hx⟩ := List.mem_flatMap.mp hx
      exact hother t (by rw [hsplit]; simp [ht]) (hafter t ht) x hx

/-! ## Veneers -/

/-- The veneer of a destination. -/
def VeneerPool.create (arch : Arch) (p : VeneerPool) (m : ByteBuffer) (dest : ℤ) :
    Except Fault (ByteBuffer × VeneerPool × ℕ) :=
  match arch with
  | .x86_64 => p.getOrCreateX86 m dest
  | .aarch64 => p.getOrCreate m dest

/-- The bytes of a mapping with a veneer at an offset. -/
def veneerImage (arch : Arch) (image : ℕ → UInt8) (off : ℕ) (dest : ℤ) : ℕ → UInt8 :=
  match arch with
  | .x86_64 =>
    overlay (overlay (overlay image off [0x49, 0xBB]) (off + 2) (leBytes 8 dest.toNat)) (off + 10)
      [0x41, 0xFF, 0xE3]
  | .aarch64 =>
    overlay (overlay (overlay image off (leBytes 4 0x58000050)) (off + 4) (leBytes 4 0xD61F0200))
      (off + 8) (leBytes 8 dest.toNat)

theorem VeneerPool.create_known {p : VeneerPool} {m : ByteBuffer} {dest : ℤ}
    (h : p.map.lookup dest = some off) : p.create arch m dest = .ok (m, p, off) := by
  have hres : p.reserve dest = (p, off, false) := by rw [VeneerPool.reserve, h]
  cases arch with
  | x86_64 => simp only [VeneerPool.create, VeneerPool.getOrCreateX86, hres]; rfl
  | aarch64 => simp only [VeneerPool.create, VeneerPool.getOrCreate, hres]; rfl

theorem VeneerPool.reserve_fresh {p : VeneerPool} {dest : ℤ} (h : p.map.lookup dest = none) :
    p.reserve dest = (⟨p.next + veneerSize, p.map ++ [(dest, p.next)]⟩, p.next, true) := by
  rw [VeneerPool.reserve, h]

theorem VeneerPool.create_fresh {p : VeneerPool} {m : ByteBuffer} {dest : ℤ}
    (h : p.map.lookup dest = none) (hfit : p.next + veneerSize ≤ m.len) :
    p.create arch m dest = .ok (⟨m.len, veneerImage arch m.get p.next dest⟩,
      ⟨p.next + veneerSize, p.map ++ [(dest, p.next)]⟩, p.next) := by
  have hres := VeneerPool.reserve_fresh h
  unfold veneerSize at hfit
  cases arch with
  | x86_64 =>
    simp only [VeneerPool.create, VeneerPool.getOrCreateX86, hres, if_true]
    rw [ByteBuffer.write_of_le (by simp; omega)]
    simp only [orPanic_ok, bind, Except.bind]
    rw [ByteBuffer.write_of_le (by simp; omega)]
    simp only [orPanic_ok]
    rw [ByteBuffer.write_of_le (by simp; omega)]
    rfl
  | aarch64 =>
    simp only [VeneerPool.create, VeneerPool.getOrCreate, hres, if_true]
    rw [ByteBuffer.write_of_le (by simp; omega)]
    simp only [orPanic_ok, bind, Except.bind]
    rw [ByteBuffer.write_of_le (by simp; omega)]
    simp only [orPanic_ok]
    rw [ByteBuffer.write_of_le (by simp; omega)]
    rfl

/-- A veneer behind the last slot is a slice outside of the mapping. -/
theorem VeneerPool.create_full {p : VeneerPool} {m : ByteBuffer} {dest : ℤ}
    (h : p.map.lookup dest = none) (hfull : m.len ≤ p.next) :
    p.create arch m dest = .error .panic := by
  have hres := VeneerPool.reserve_fresh h
  cases arch with
  | x86_64 =>
    simp only [VeneerPool.create, VeneerPool.getOrCreateX86, hres, if_true]
    rw [ByteBuffer.write_eq_none (by simp; omega)]
    rfl
  | aarch64 =>
    simp only [VeneerPool.create, VeneerPool.getOrCreate, hres, if_true]
    rw [ByteBuffer.write_eq_none (by simp; omega)]
    rfl

theorem veneerImage_frame (image : ℕ → UInt8) {off i : ℕ} (dest : ℤ)
    (h : i < off ∨ off + veneerSize ≤ i) : veneerImage arch image off dest i = image i := by
  unfold veneerSize at h
  cases arch with
  | x86_64 | aarch64 =>
    simp only [veneerImage]
    rw [overlay_of_disjoint (by simp; omega), overlay_of_disjoint (by simp; omega),
      overlay_of_disjoint (by simp; omega)]

theorem leValue_dest {dest : ℤ} (hlo : 0 ≤ dest) (hhi : dest < 2 ^ 64) :
    (leValue (leBytes 8 dest.toNat) : ℤ) = dest := by
  rw [leValue_leBytes, Nat.mod_eq_of_lt (by omega)]
  omega

/-- A veneer holds its destination. -/
theorem veneerDest_veneerImage (image : ℕ → UInt8) (off : ℕ) {dest : ℤ} (hlo : 0 ≤ dest)
    (hhi : dest < 2 ^ 64) : veneerDest arch (veneerImage arch image off dest) off = some dest := by
  have hdest := leValue_dest hlo hhi
  cases arch with
  | x86_64 =>
    have h1 : slice (veneerImage .x86_64 image off dest) off 2 = [0x49, 0xBB] := by
      simp only [veneerImage]
      rw [slice_overlay_of_disjoint _ (by omega), slice_overlay_of_disjoint _ (by omega)]
      exact slice_overlay _ _ [0x49, 0xBB]
    have h2 : slice (veneerImage .x86_64 image off dest) (off + 10) 3 = [0x41, 0xFF, 0xE3] :=
      slice_overlay _ _ [0x41, 0xFF, 0xE3]
    have h3 : slice (veneerImage .x86_64 image off dest) (off + 2) 8 = leBytes 8 dest.toNat := by
      simp only [veneerImage]
      rw [slice_overlay_of_disjoint _ (by omega)]
      have := slice_overlay (overlay image off [0x49, 0xBB]) (off + 2) (leBytes 8 dest.toNat)
      rwa [leBytes_length] at this
    simp only [veneerDest]
    rw [if_pos ⟨h1, h2⟩, h3, hdest]
  | aarch64 =>
    have h1 : slice (veneerImage .aarch64 image off dest) off 4 = leBytes 4 0x58000050 := by
      simp only [veneerImage]
      rw [slice_overlay_of_disjoint _ (by omega), slice_overlay_of_disjoint _ (by omega)]
      exact slice_overlay _ _ (leBytes 4 0x58000050)
    have h2 : slice (veneerImage .aarch64 image off dest) (off + 4) 4 = leBytes 4 0xD61F0200 := by
      simp only [veneerImage]
      rw [slice_overlay_of_disjoint _ (by omega)]
      exact slice_overlay _ _ (leBytes 4 0xD61F0200)
    have h3 : slice (veneerImage .aarch64 image off dest) (off + 8) 8 = leBytes 8 dest.toNat := by
      have := slice_overlay (overlay (overlay image off (leBytes 4 0x58000050)) (off + 4)
        (leBytes 4 0xD61F0200)) (off + 8) (leBytes 8 dest.toNat)
      rwa [leBytes_length] at this
    simp only [veneerDest]
    rw [if_pos ⟨h1, h2⟩, h3, hdest]

theorem veneerDest_congr (h : ∀ i, off ≤ i → i < off + veneerSize → image' i = image i) :
    veneerDest arch image' off = veneerDest arch image off := by
  unfold veneerSize at h
  have hslice : ∀ o n, off ≤ o → o + n ≤ off + 16 → slice image' o n = slice image o n :=
    fun o n hlo hhi => slice_congr fun i _ _ => h i (by omega) (by omega)
  cases arch with
  | x86_64 =>
    simp only [veneerDest]
    rw [hslice off 2 (by omega) (by omega), hslice (off + 10) 3 (by omega) (by omega),
      hslice (off + 2) 8 (by omega) (by omega)]
  | aarch64 =>
    simp only [veneerDest]
    rw [hslice off 4 (by omega) (by omega), hslice (off + 4) 4 (by omega) (by omega),
      hslice (off + 8) 8 (by omega) (by omega)]

/-! ## A relocation does what it asks for -/

def serve (arch : Arch) (m : ByteBuffer) (off : ℕ) (p : VeneerPool) :
    Request → Except Fault (ByteBuffer × VeneerPool)
  | .patch bytes => do
    let m ← orPanic (m.write off bytes)
    .ok (m, p)
  | .veneer dest => do
    let (m, p, veneerOff) ← p.create arch m dest
    let bytes ← orError (hopBytes arch m.get off veneerOff)
    let m ← orPanic (m.write off bytes)
    .ok (m, p)
  | .refused => .error .error

theorem patchInsn_eq {m : ByteBuffer} (h : off + 4 ≤ m.len) (mask bits : ℕ) :
    patchInsn m off mask bits = orPanic (m.write off (insnBytes m.get off mask bits)) := by
  unfold patchInsn
  rw [ByteBuffer.read_of_le h]
  rfl

theorem isDirectBranch_eq {m : ByteBuffer} (h : off + 4 ≤ m.len) (rType : RelocationType) :
    isDirectBranch m off rType =
      .ok (decide (isBranchType .x86_64 rType ∧ isBranchInsn .x86_64 m.get off)) := by
  unfold isDirectBranch
  have hslice : slice m.get (off - 1) 1 = [m.get (off - 1)] := by simp [slice]
  split
  · next hc =>
    rw [ByteBuffer.read_of_le (by omega), hslice]
    have ht : isBranchType .x86_64 rType = true := by simpa [isBranchType] using hc.1
    simp [orPanic, bind, Except.bind, ht, isBranchInsn, hc.2]
  · next hc =>
    congr 1
    symm
    rw [decide_eq_false_iff_not]
    rintro ⟨ht, hi⟩
    exact hc ⟨by simpa [isBranchType] using ht, hi.1⟩

/-- A pool whose next slot is whole, or behind the mapping. -/
def VeneerPool.Aligned (p : VeneerPool) (m : ByteBuffer) : Prop :=
  p.next + veneerSize ≤ m.len ∨ m.len ≤ p.next

variable (arch) in
/-- A veneer is a known one, a fresh one, or a slice outside of the mapping. -/
theorem VeneerPool.create_cases {p : VeneerPool} {m : ByteBuffer} (h : p.Aligned m) (dest : ℤ) :
    (∃ m' p' off, p.create arch m dest = .ok (m', p', off) ∧ m'.len = m.len) ∨
      p.create arch m dest = .error .panic := by
  rcases hlookup : p.map.lookup dest with _ | off
  · rcases h with hfit | hfull
    · exact Or.inl ⟨_, _, _, create_fresh hlookup hfit, rfl⟩
    · exact Or.inr (create_full hlookup hfull)
  · exact Or.inl ⟨_, _, _, create_known hlookup, rfl⟩

theorem relocPc32_eq_serve {m : ByteBuffer} {p : VeneerPool} (hp : p.Aligned m)
    (h : off + 4 ≤ m.len) (target addend : ℤ)
    (hType : rType = .x86Pc32 ∨ rType = .x86Plt32 ∨ rType = .x86GotPcRelX ∨
      rType = .x86RexGotPcRelX) :
    relocPc32 m off (base + off) target addend rType p =
      serve .x86_64 m off p (requestX86 m.get off (base + off) target addend rType) := by
  have hreq : requestX86 m.get off (base + off) target addend rType =
      if fitsI32 (wrapSigned 64 (target + addend - (base + off))) then
        .patch (toLeBytes 4 (wrapSigned 64 (target + addend - (base + off))))
      else if isBranchType .x86_64 rType ∧ isBranchInsn .x86_64 m.get off then
        .veneer (branchDest .x86_64 target addend)
      else .refused := by
    rcases hType with rfl | rfl | rfl | rfl <;> rfl
  rw [hreq, relocPc32]
  split
  · rfl
  · rw [isDirectBranch_eq h]
    simp only [bind, Except.bind]
    by_cases hb : isBranchType .x86_64 rType ∧ isBranchInsn .x86_64 m.get off
    · rw [if_pos hb]
      simp only [decide_eq_true hb, if_true, serve]
      rcases VeneerPool.create_cases .x86_64 hp (branchDest .x86_64 target addend)
        with ⟨m', p', v, hcreate, hlen⟩ | hcreate
      · have hcreate' : p.getOrCreateX86 m (wrapUnsigned 64 (target + addend + 4)) =
          .ok (m', p', v) := hcreate
        have hhop : base + (off : ℤ) - off + v - 4 - (base + off) = v - 4 - off := by omega
        simp only [hcreate, hcreate', hhop, bind, Except.bind, hopBytes]
        split <;> rfl
      · have hcreate' : p.getOrCreateX86 m (wrapUnsigned 64 (target + addend + 4)) =
          .error .panic := hcreate
        simp only [hcreate, hcreate', bind, Except.bind]
    · rw [if_neg hb]
      simp only [decide_eq_false hb]
      rfl

theorem relocCall26_eq_serve {m : ByteBuffer} {p : VeneerPool} (hp : p.Aligned m)
    (h : off + 4 ≤ m.len) (target addend : ℤ)
    (hType : rType = .aarch64Call26 ∨ rType = .aarch64Jump26) :
    relocCall26 m off (base + off) target addend p =
      serve .aarch64 m off p (requestAarch64 m.get off (base + off) target addend rType) := by
  have hreq : requestAarch64 m.get off (base + off) target addend rType =
      if -call26Max ≤ wrapSigned 64 (target + addend - (base + off)) ∧
          wrapSigned 64 (target + addend - (base + off)) ≤ call26Max then
        .patch (call26Bytes m.get off (wrapSigned 64 (target + addend - (base + off))))
      else .veneer (branchDest .aarch64 target addend) := by
    rcases hType with rfl | rfl <;> rfl
  rw [hreq, relocCall26]
  simp only [call26Offset, wrapSigned_sub_wrapSigned]
  split
  · simp only [bind, Except.bind]
    rw [patchInsn_eq h]
    rfl
  · have hdest : wrapUnsigned 64 (wrapSigned 64 (target + addend)) =
        branchDest .aarch64 target addend := Int.bmod_emod
    rw [hdest]
    rcases VeneerPool.create_cases .aarch64 hp (branchDest .aarch64 target addend)
      with ⟨m', p', v, hcreate, hlen⟩ | hcreate
    · have hcreate' : p.getOrCreate m (branchDest .aarch64 target addend) =
        .ok (m', p', v) := hcreate
      have hhop : base + (off : ℤ) - off + v - (base + off) = v - off := by omega
      simp only [serve, hcreate, hcreate', hhop, bind, Except.bind, hopBytes]
      rw [patchInsn_eq (hlen ▸ h)]
      rfl
    · have hcreate' : p.getOrCreate m (branchDest .aarch64 target addend) =
        .error .panic := hcreate
      simp only [serve, hcreate, hcreate', bind, Except.bind]

/-- The bytes a relocation writes are those of its request. -/
theorem applyRelocation_eq_serve {m : ByteBuffer} {p : VeneerPool} (hp : p.Aligned m)
    (hflags : r.flags = some rType) (h : off + r.width ≤ m.len) (target addend : ℤ) :
    applyRelocation arch m off (base + off) target addend rType p =
      serve arch m off p (request arch m.get off (base + off) target addend rType) := by
  unfold Relocation.width at h
  rw [hflags] at h
  cases arch with
  | x86_64 =>
    simp only [applyRelocation, request]
    cases rType with
    | x86Pc32 | x86Plt32 | x86GotPcRelX | x86RexGotPcRelX =>
      exact relocPc32_eq_serve hp h target addend (by simp)
    | x86Abs32S | x86Abs32 =>
      simp only [relocX86_64, requestX86]
      split <;> rfl
    | _ => rfl
  | aarch64 =>
    simp only [applyRelocation, request]
    cases rType with
    | aarch64Call26 | aarch64Jump26 => exact relocCall26_eq_serve hp h target addend (by simp)
    | unsupported | x86Pc32 | x86Plt32 | x86GotPcRelX | x86RexGotPcRelX | x86Abs32S | x86Abs32
    | x86Abs64 => rfl
    | _ =>
      simp only [relocAarch64, requestAarch64]
      rw [patchInsn_eq h]
      rfl

theorem insnAt_congr (h : ∀ i, off ≤ i → i < off + 4 → image' i = image i) :
    insnAt image' off = insnAt image off := by
  unfold insnAt
  rw [slice_congr h]

variable (arch) in
theorem isBranchInsn_congr (h : ∀ i, insnStart arch off ≤ i → i < off + 4 → image' i = image i) :
    isBranchInsn arch image' off ↔ isBranchInsn arch image off := by
  cases arch with
  | x86_64 =>
    have hopcode : image' (off - 1) = image (off - 1) := h _ le_rfl (by omega)
    simp only [isBranchInsn, hopcode]
  | aarch64 =>
    have hword : insnAt image' off = insnAt image off := insnAt_congr h
    simp only [isBranchInsn, hword]

theorem insnBytes_congr (h : ∀ i, i < off + 4 → image' i = image i) (mask bits : ℕ) :
    insnBytes image' off mask bits = insnBytes image off mask bits := by
  unfold insnBytes
  rw [insnAt_congr fun i _ hi => h i hi]

theorem hopBytes_congr (arch : Arch) (off : ℕ) (h : ∀ i, i < off + 4 → image' i = image i) (v : ℕ) :
    hopBytes arch image' off v = hopBytes arch image off v := by
  cases arch with
  | x86_64 => rfl
  | aarch64 =>
    simp only [hopBytes, call26Bytes]
    rw [insnBytes_congr h]

/-- A request depends on the bytes up to the end of the field. -/
theorem request_congr (hflags : r.flags = some rType)
    (h : ∀ i, i < off + r.width → image' i = image i) (patch target addend : ℤ) :
    request arch image' off patch target addend rType =
      request arch image off patch target addend rType := by
  unfold Relocation.width at h
  rw [hflags] at h
  cases arch with
  | x86_64 =>
    cases rType <;> simp only [request, requestX86] at h ⊢ <;>
      simp only [isBranchInsn_congr _ fun i _ hi => h i hi]
  | aarch64 =>
    cases rType <;> simp only [request, requestAarch64, call26Bytes] at h ⊢ <;>
      simp only [insnBytes_congr h]

@[simp] theorem toLeBytes_length (n : ℕ) (v : ℤ) : (toLeBytes n v).length = n := leBytes_length _ _

@[simp] theorem insnBytes_length (image : ℕ → UInt8) (off mask bits : ℕ) :
    (insnBytes image off mask bits).length = 4 := leBytes_length _ _

/-- The bytes that are asked for fill the field. -/
theorem request_patch_length (hflags : r.flags = some rType) {patch target addend : ℤ}
    {bytes : List UInt8} (h : request arch image off patch target addend rType = .patch bytes) :
    bytes.length = r.width := by
  unfold Relocation.width
  rw [hflags]
  cases arch with
  | x86_64 =>
    cases rType <;> simp only [request, requestX86] at h <;>
      first
        | cases h; exact toLeBytes_length _ _
        | (split at h
           · cases h; exact toLeBytes_length _ _
           · first
              | cases h
              | (split at h <;> cases h))
        | cases h
  | aarch64 =>
    cases rType <;> simp only [request, requestAarch64] at h <;>
      first
        | cases h; exact insnBytes_length _ _ _ _
        | (split at h
           · cases h; exact insnBytes_length _ _ _ _
           · cases h)
        | cases h

/-- A veneer is asked for the destination of a branch. -/
theorem request_veneer (hflags : r.flags = some rType) {patch target addend dest : ℤ}
    (h : request arch image off patch target addend rType = .veneer dest) :
    r.width = 4 ∧ dest = branchDest arch target addend := by
  unfold Relocation.width
  rw [hflags]
  cases arch with
  | x86_64 =>
    cases rType <;> simp only [request, requestX86] at h <;>
      first
        | cases h
        | (split at h
           · cases h
           · first
              | cases h
              | (split at h
                 · cases h; exact ⟨rfl, rfl⟩
                 · cases h))
  | aarch64 =>
    cases rType <;> simp only [request, requestAarch64] at h <;>
      first
        | cases h
        | (split at h
           · cases h
           · cases h; exact ⟨rfl, rfl⟩)

theorem branchDest_bounds (arch : Arch) (target addend : ℤ) :
    0 ≤ branchDest arch target addend ∧ branchDest arch target addend < 2 ^ 64 := by
  cases arch
  · exact ⟨wrapUnsigned_nonneg _ _, wrapUnsigned_lt _ _⟩
  · exact ⟨wrapUnsigned_nonneg _ _, wrapUnsigned_lt _ _⟩

theorem hopBytes_length {off v : ℕ} {bytes : List UInt8}
    (h : hopBytes arch image off v = some bytes) : bytes.length = 4 := by
  cases arch with
  | x86_64 =>
    simp only [hopBytes] at h
    split at h
    · cases h
      exact toLeBytes_length _ _
    · cases h
  | aarch64 =>
    cases h
    exact insnBytes_length _ _ _ _

/-! ## The loader follows the plan -/

/-- The veneers of destinations, one slot after the other. -/
def veneerMap (obj : ObjectFile) (dests : List ℤ) : List (ℤ × ℕ) :=
  dests.zipIdx.map fun d => (d.1, veneerBase obj + d.2 * veneerSize)

theorem lookup_zipIdx (f : ℕ → ℕ) (dests : List ℤ) (k : ℕ) (dest : ℤ) :
    ((dests.zipIdx k).map fun d => (d.1, f d.2)).lookup dest =
      if dest ∈ dests then some (f (k + dests.idxOf dest)) else none := by
  induction dests generalizing k with
  | nil => rfl
  | cons d rest ih =>
    rw [List.zipIdx_cons, List.map_cons, List.lookup_cons, ih]
    by_cases hd : dest = d
    · simp [hd]
    · have hne : (dest == d) = false := beq_eq_false_iff_ne.mpr hd
      simp only [hne, List.mem_cons, hd, false_or, List.idxOf_cons_ne _ (Ne.symm hd)]
      split
      · congr 2
        omega
      · rfl

variable (obj) in
theorem lookup_veneerMap (dests : List ℤ) (dest : ℤ) :
    (veneerMap obj dests).lookup dest =
      if dest ∈ dests then some (veneerBase obj + dests.idxOf dest * veneerSize) else none := by
  have h := lookup_zipIdx (fun i => veneerBase obj + i * veneerSize) dests 0 dest
  rw [Nat.zero_add] at h
  exact h

/-- The mapping holds the sections of the plan and the veneers of its destinations. -/
structure Follows (arch : Arch) (obj : ObjectFile) (m : ByteBuffer) (p : VeneerPool)
    (plan : Plan) : Prop where
  len : m.len = mappingLen arch obj
  image : ∀ i, i < veneerBase obj → m.get i = plan.image i
  pool : p = ⟨veneerBase obj + plan.dests.length * veneerSize, veneerMap obj plan.dests⟩
  slots : plan.dests.length ≤ veneerSlots arch obj
  held : ∀ i dest, plan.dests[i]? = some dest →
    veneerDest arch m.get (veneerBase obj + i * veneerSize) = some dest

variable {m : ByteBuffer} {p : VeneerPool} {plan : Plan}

theorem Follows.aligned (h : Follows arch obj m p plan) : p.Aligned m := by
  have hslots := h.slots
  unfold VeneerPool.Aligned
  rw [h.pool, h.len, mappingLen]
  unfold veneerSize
  show _ + plan.dests.length * 16 + 16 ≤ _ ∨ _ ≤ _ + plan.dests.length * 16
  omega

/-- Writing a field of a section. -/
theorem Follows.put (h : Follows arch obj m p plan) (off : ℕ) (bytes : List UInt8)
    (hfit : off + bytes.length ≤ veneerBase obj) :
    ∃ m', m.write off bytes = some m' ∧ Follows arch obj m' p (plan.put off bytes) := by
  refine ⟨_, ByteBuffer.write_of_le ?_, h.len, ?_, h.pool, h.slots, ?_⟩
  · rw [h.len, mappingLen]
    omega
  · intro i hi
    exact overlay_congr (h.image i hi) _ _
  · intro i dest hi
    rw [← h.held i dest hi]
    exact veneerDest_congr fun j hj _ => overlay_of_disjoint (by omega)

/-- A veneer for a destination: the one of the plan, or none where its slot lies outside. -/
theorem Follows.create (h : Follows arch obj m p plan) (dest : ℤ) (hlo : 0 ≤ dest)
    (hhi : dest < 2 ^ 64) :
    if veneerSlots arch obj < (plan.demand dest).dests.length then
      p.create arch m dest = .error .panic
    else
      ∃ m' p', p.create arch m dest = .ok (m', p', (plan.demand dest).slotOf obj dest) ∧
        Follows arch obj m' p' (plan.demand dest) := by
  have hlookup := lookup_veneerMap obj plan.dests dest
  have hmap : p.map = veneerMap obj plan.dests := by rw [h.pool]
  have hnext : p.next = veneerBase obj + plan.dests.length * veneerSize := by rw [h.pool]
  have hslots := h.slots
  have hsize : veneerSize = 16 := rfl
  rw [← hmap] at hlookup
  by_cases hmem : dest ∈ plan.dests
  · have hdemand : plan.demand dest = plan := if_pos hmem
    rw [if_pos hmem] at hlookup
    rw [hdemand, if_neg (by omega)]
    exact ⟨m, p, VeneerPool.create_known hlookup, h⟩
  · have hdemand : plan.demand dest = ⟨plan.image, plan.dests ++ [dest]⟩ := if_neg hmem
    rw [if_neg hmem] at hlookup
    rw [hdemand]
    simp only [List.length_append, List.length_singleton]
    split
    · next hfull =>
      refine VeneerPool.create_full hlookup ?_
      rw [h.len, mappingLen, hnext]
      have : veneerSlots arch obj = plan.dests.length := by omega
      rw [this]
    · next hfree =>
      have hslot : Plan.slotOf obj ⟨plan.image, plan.dests ++ [dest]⟩ dest = p.next := by
        rw [hnext, Plan.slotOf, List.idxOf_append_of_notMem hmem]
        simp
      have hfit : p.next + veneerSize ≤ m.len := by
        rw [h.len, mappingLen, hnext, hsize]
        omega
      refine ⟨⟨m.len, veneerImage arch m.get p.next dest⟩,
        ⟨p.next + veneerSize, p.map ++ [(dest, p.next)]⟩,
        (VeneerPool.create_fresh hlookup hfit).trans (by rw [hslot]), h.len, ?_, ?_,
        by simpa using hfree, ?_⟩
      · intro i hi
        rw [← h.image i hi]
        exact veneerImage_frame _ _ (Or.inl (by omega))
      · rw [hmap, hnext]
        simp only [veneerMap, List.zipIdx_append, List.map_append, List.length_append,
          List.length_singleton, List.zipIdx_cons, List.zipIdx_nil, List.map_cons, List.map_nil,
          Nat.zero_add, Nat.add_mul, Nat.one_mul, Nat.add_assoc]
      · intro i d hi
        rw [List.getElem?_append] at hi
        split at hi
        · next hlt =>
          -- the slots before are untouched
          rw [← h.held i d hi]
          refine veneerDest_congr fun j _ hj => veneerImage_frame _ _ (Or.inl ?_)
          rw [hnext]
          rw [hsize] at hj ⊢
          omega
        · next hge =>
          have hi0 : i - plan.dests.length = 0 := by
            by_contra hne
            rw [List.getElem?_eq_none (by simp; omega)] at hi
            cases hi
          have hlen : i = plan.dests.length := by omega
          rw [hi0] at hi
          cases hi
          rw [hlen, ← hnext]
          exact veneerDest_veneerImage _ _ hlo hhi

/-- What the loader does where the plan arrives. -/
def Outcome (arch : Arch) (obj : ObjectFile) (r : Except Fault (ByteBuffer × VeneerPool))
    (out : Plan × Bool) : Prop :=
  if veneerSlots arch obj < out.1.dests.length then r = .error .panic
  else if out.2 then ∃ m p, r = .ok (m, p) ∧ Follows arch obj m p out.1
  else r = .error .error

theorem orError_error {α : Type} {o : Option α} {e : Fault} (h : orError o = .error e) :
    e = .error := by
  cases o with
  | none => cases h; rfl
  | some a => cases h

theorem symbolAddr_error {l : Layout} {index : ℕ} {e : Fault}
    (h : symbolAddr base resolve l obj index = .error e) : e = .error := by
  rcases bind_eq_error h with h | ⟨s, -, h⟩
  · exact orError_error h
  · split at h
    · cases h
    · rcases bind_eq_error h with h | ⟨name, -, h⟩
      · exact orError_error h
      · exact orError_error h

/-- An address that is missing is an error, not a panic. -/
theorem targetAddr_error {l : Layout} {t : RelocationTarget} {e : Fault}
    (h : targetAddr base resolve l obj t = .error e) : e = .error := by
  cases t with
  | symbol index => exact symbolAddr_error h
  | «section» index =>
    rcases bind_eq_error h with h | ⟨off, -, h⟩
    · exact orError_error h
    · cases h
  | other =>
    cases h
    rfl

section

variable {x : Site} {dest : ℤ} {bytes : List UInt8}

theorem Plan.step_of_patch (h : plan.request arch base resolve obj x = .patch bytes) :
    plan.step arch base resolve obj x = (plan.put x.off bytes, true) := by
  rw [Plan.step, h]

theorem Plan.step_of_hop (h : plan.request arch base resolve obj x = .veneer dest)
    (hbytes : hopBytes arch plan.image x.off ((plan.demand dest).slotOf obj dest) = some bytes) :
    plan.step arch base resolve obj x = ((plan.demand dest).put x.off bytes, true) := by
  rw [Plan.step, h]
  simp only [hbytes]

theorem Plan.step_of_no_hop (h : plan.request arch base resolve obj x = .veneer dest)
    (hnone : hopBytes arch plan.image x.off ((plan.demand dest).slotOf obj dest) = none) :
    plan.step arch base resolve obj x = (plan.demand dest, false) := by
  rw [Plan.step, h]
  simp only [hnone]

theorem Plan.step_of_refused (h : plan.request arch base resolve obj x = .refused) :
    plan.step arch base resolve obj x = (plan, false) := by
  rw [Plan.step, h]

end

theorem Outcome.panic {out : Plan × Bool} (h : veneerSlots arch obj < out.1.dests.length) :
    Outcome arch obj (.error .panic) out := by
  rw [Outcome, if_pos h]

theorem Outcome.ok (h : Follows arch obj m p plan) : Outcome arch obj (.ok (m, p)) (plan, true) := by
  rw [Outcome, if_neg (Nat.not_lt.mpr h.slots)]
  exact ⟨m, p, rfl, h⟩

theorem Outcome.error (h : plan.dests.length ≤ veneerSlots arch obj) :
    Outcome arch obj (.error .error) (plan, false) := by
  rw [Outcome, if_neg (Nat.not_lt.mpr h)]
  exact rfl

/-- The sections stay while a destination is added. -/
theorem Plan.demand_image (plan : Plan) (dest : ℤ) : (plan.demand dest).image = plan.image := by
  unfold Plan.demand
  split <;> rfl

/-- A request served as planned. -/
theorem Follows.serve (h : Follows arch obj m p plan) {x : Site} (hx : x.Within obj) {r : Request}
    (hpatch : ∀ bytes, r = .patch bytes → bytes.length = x.reloc.width)
    (hveneer : ∀ dest, r = .veneer dest → x.reloc.width = 4 ∧ 0 ≤ dest ∧ dest < 2 ^ 64)
    (hreq : plan.request arch base resolve obj x = r) :
    Outcome arch obj (serve arch m x.off p r) (plan.step arch base resolve obj x) := by
  have hbase := le_veneerBase obj
  unfold Site.Within at hx
  cases r with
  | patch bytes =>
    have hlen := hpatch bytes rfl
    obtain ⟨m', hwrite, hfollow⟩ := h.put x.off bytes (by omega)
    rw [Plan.step_of_patch hreq]
    simp only [JitLoader.serve, hwrite, orPanic_ok, bind, Except.bind]
    exact .ok hfollow
  | veneer dest =>
    obtain ⟨hwidth, hlo, hhi⟩ := hveneer dest rfl
    have hcreate := h.create dest hlo hhi
    split at hcreate
    · next hfull =>
      simp only [JitLoader.serve, hcreate, bind, Except.bind]
      rcases hbytes : hopBytes arch plan.image x.off ((plan.demand dest).slotOf obj dest)
        with _ | bytes
      · rw [Plan.step_of_no_hop hreq hbytes]
        exact .panic hfull
      · rw [Plan.step_of_hop hreq hbytes]
        exact .panic hfull
    · obtain ⟨m', p', hcreate, hfollow⟩ := hcreate
      have hhop := hopBytes_congr arch x.off
        (fun i hi => hfollow.image i (by omega)) ((plan.demand dest).slotOf obj dest)
      rw [Plan.demand_image] at hhop
      rcases hbytes : hopBytes arch plan.image x.off ((plan.demand dest).slotOf obj dest)
        with _ | bytes
      · rw [Plan.step_of_no_hop hreq hbytes]
        simp only [JitLoader.serve, hcreate, hhop, hbytes, orError, bind, Except.bind]
        exact .error hfollow.slots
      · have hlen := hopBytes_length hbytes
        obtain ⟨m₂, hwrite, hfollow₂⟩ := hfollow.put x.off bytes (by omega)
        rw [Plan.step_of_hop hreq hbytes]
        simp only [JitLoader.serve, hcreate, hhop, hbytes, orError, hwrite, orPanic_ok, bind,
          Except.bind]
        exact .ok hfollow₂
  | refused =>
    rw [Plan.step_of_refused hreq]
    exact .error h.slots

variable (base resolve) in
/-- One relocation is applied as planned. -/
theorem Follows.step (h : Follows arch obj m p plan) {x : Site} (hx : x.Within obj) :
    Outcome arch obj (applySite arch base resolve obj m p x)
      (plan.step arch base resolve obj x) := by
  have hbase := le_veneerBase obj
  have hrefused : plan.request arch base resolve obj x = .refused →
      applySite arch base resolve obj m p x = .error .error →
      Outcome arch obj (applySite arch base resolve obj m p x)
        (plan.step arch base resolve obj x) := by
    intro hreq happly
    rw [Plan.step_of_refused hreq, happly]
    exact .error h.slots
  rcases htarget : targetAddr base resolve (layout obj.sections) obj x.reloc.target with e | target
  · refine hrefused ?_ ?_
    · simp only [Plan.request, htarget]
    · rw [applySite, htarget, targetAddr_error htarget]
      rfl
  · rcases hflags : x.reloc.flags with _ | rType
    · refine hrefused ?_ ?_
      · simp only [Plan.request, htarget, hflags]
      · simp only [applySite, htarget, hflags]
        rfl
    · have hfit : x.off + x.reloc.width ≤ m.len := by
        rw [h.len, mappingLen]
        unfold Site.Within at hx
        omega
      have happly : applySite arch base resolve obj m p x = JitLoader.serve arch m x.off p
          (request arch m.get x.off (base + x.off) target x.reloc.addend rType) := by
        simp only [applySite, htarget, hflags, orError, bind, Except.bind]
        exact applyRelocation_eq_serve h.aligned hflags hfit target _
      have hreq : plan.request arch base resolve obj x =
          request arch m.get x.off (base + x.off) target x.reloc.addend rType := by
        simp only [Plan.request, htarget, hflags]
        refine (request_congr hflags (fun i hi => h.image i ?_) _ _ _).symm
        unfold Site.Within at hx
        omega
      rw [happly]
      refine h.serve hx (fun bytes hb => request_patch_length hflags hb) (fun dest hd => ?_) hreq
      obtain ⟨hwidth, rfl⟩ := request_veneer hflags hd
      exact ⟨hwidth, branchDest_bounds _ _ _⟩

theorem Plan.length_le_demand (plan : Plan) (dest : ℤ) :
    plan.dests.length ≤ (plan.demand dest).dests.length := by
  unfold Plan.demand
  split
  · exact le_rfl
  · simp

variable (arch base resolve obj) in
theorem Plan.length_le_step (plan : Plan) (x : Site) :
    plan.dests.length ≤ (plan.step arch base resolve obj x).1.dests.length := by
  unfold Plan.step
  split
  · exact le_rfl
  · split
    · exact plan.length_le_demand _
    · exact plan.length_le_demand _
  · exact le_rfl

variable (arch base resolve obj) in
theorem Plan.length_le_run (plan : Plan) (xs : List Site) :
    plan.dests.length ≤ (plan.run arch base resolve obj xs).1.dests.length := by
  induction xs generalizing plan with
  | nil => exact le_rfl
  | cons x rest ih =>
    have hstep := plan.length_le_step arch base resolve obj x
    rw [Plan.run]
    split
    · exact hstep.trans (ih _)
    · exact hstep

/-- A run over relocations is the planned one. -/
theorem Follows.run (h : Follows arch obj m p plan) {xs : List Site}
    (hxs : ∀ x ∈ xs, x.Within obj) :
    Outcome arch obj (applySites arch base resolve obj m p xs)
      (plan.run arch base resolve obj xs) := by
  induction xs generalizing m p plan with
  | nil => exact .ok h
  | cons x rest ih =>
    have hstep := h.step base resolve (hxs x List.mem_cons_self)
    have hmono := Plan.length_le_run arch base resolve obj (plan.step arch base resolve obj x).1 rest
    unfold Outcome at hstep
    rw [applySites, Plan.run]
    split at hstep
    · next hfull =>
      -- the slots are used up: the loader stops here, whatever the plan has left
      rw [hstep]
      split
      · exact .panic (hfull.trans_le hmono)
      · exact .panic hfull
    · next hfree =>
      split at hstep
      · next hacc =>
        obtain ⟨m', p', happly, hfollow⟩ := hstep
        rw [happly, if_pos hacc]
        exact ih hfollow fun y hy => hxs y (List.mem_cons_of_mem x hy)
      · next hacc =>
        rw [hstep, if_neg hacc]
        exact .error (Nat.not_lt.mp hfree)

theorem start_follows (hobj : obj.WellFormed arch) :
    ∃ m, loaded arch obj = .ok m ∧ Plan.start arch obj = ⟨m.get, []⟩ ∧
      Follows arch obj m (.new (veneerBase obj)) (Plan.start arch obj) := by
  obtain ⟨m, hm, hlen, -⟩ := hobj.loaded_ok
  have hstart : Plan.start arch obj = ⟨m.get, []⟩ := by rw [Plan.start, hm]
  refine ⟨m, hm, hstart, ?_⟩
  rw [hstart]
  refine ⟨hlen, fun _ _ => rfl, ?_, Nat.zero_le _, fun i dest hi => ?_⟩
  · simp [VeneerPool.new, veneerMap]
  · cases hi

variable (base resolve) in
/-- The loader does as planned. -/
theorem applySites_outcome (hobj : obj.WellFormed arch) :
    ∃ m, loaded arch obj = .ok m ∧ Outcome arch obj
      (applySites arch base resolve obj m (.new (veneerBase obj)) (sites obj))
      (planned arch base resolve obj) := by
  obtain ⟨m, hm, -, hfollow⟩ := start_follows hobj
  exact ⟨m, hm, hfollow.run fun x hx => sites_within hobj hx⟩

/-! ## What a run leaves -/

section

variable {x : Site} {dest : ℤ} {bytes : List UInt8}

variable (arch base resolve obj) in
/-- A request of a site, with what it refers to. -/
theorem Plan.request_cases (plan : Plan) (x : Site) :
    plan.request arch base resolve obj x = .refused ∨
      ∃ target rType, targetAddr base resolve (layout obj.sections) obj x.reloc.target = .ok target ∧
        x.reloc.flags = some rType ∧ plan.request arch base resolve obj x =
          JitLoader.request arch plan.image x.off (base + x.off) target x.reloc.addend rType := by
  rcases htarget : targetAddr base resolve (layout obj.sections) obj x.reloc.target with e | target
  · exact Or.inl (by simp only [Plan.request, htarget])
  · rcases hflags : x.reloc.flags with _ | rType
    · exact Or.inl (by simp only [Plan.request, htarget, hflags])
    · exact Or.inr ⟨target, rType, rfl, rfl, by simp only [Plan.request, htarget, hflags]⟩

theorem Plan.request_patch_length (h : plan.request arch base resolve obj x = .patch bytes) :
    bytes.length = x.reloc.width := by
  rcases plan.request_cases arch base resolve obj x
    with hr | ⟨target, rType, -, hflags, hr⟩
  · rw [hr] at h
    cases h
  · exact JitLoader.request_patch_length hflags (hr.symm.trans h)

theorem Plan.request_veneer_width (h : plan.request arch base resolve obj x = .veneer dest) :
    x.reloc.width = 4 := by
  rcases plan.request_cases arch base resolve obj x
    with hr | ⟨target, rType, -, hflags, hr⟩
  · rw [hr] at h
    cases h
  · exact (JitLoader.request_veneer hflags (hr.symm.trans h)).1

variable (arch base resolve obj plan) in
/-- A step changes its own field only. -/
theorem Plan.step_frame {i : ℕ} (hi : i < x.off ∨ x.off + x.reloc.width ≤ i) :
    (plan.step arch base resolve obj x).1.image i = plan.image i := by
  rcases hreq : plan.request arch base resolve obj x with bytes | dest | _
  · have hlen := Plan.request_patch_length hreq
    rw [Plan.step_of_patch hreq]
    exact overlay_of_disjoint (by omega)
  · have hwidth := Plan.request_veneer_width hreq
    rw [← Plan.demand_image plan dest]
    rcases hbytes : hopBytes arch plan.image x.off ((plan.demand dest).slotOf obj dest)
      with _ | bytes
    · rw [Plan.step_of_no_hop hreq hbytes]
    · have hlen := hopBytes_length hbytes
      rw [Plan.step_of_hop hreq hbytes]
      exact overlay_of_disjoint (by omega)
  · rw [Plan.step_of_refused hreq]

/-- A run changes the fields of its relocations only. -/
theorem Plan.run_frame {xs : List Site} {i : ℕ}
    (hi : ∀ x ∈ xs, i < x.off ∨ x.off + x.reloc.width ≤ i) (plan : Plan) :
    (plan.run arch base resolve obj xs).1.image i = plan.image i := by
  induction xs generalizing plan with
  | nil => rfl
  | cons x rest ih =>
    have hstep := Plan.step_frame arch base resolve obj plan
      (hi x List.mem_cons_self)
    rw [Plan.run]
    split
    · rw [ih (fun y hy => hi y (List.mem_cons_of_mem x hy)), hstep]
    · exact hstep

theorem Plan.dests_prefix_demand (plan : Plan) (dest : ℤ) :
    plan.dests <+: (plan.demand dest).dests := by
  unfold Plan.demand
  split
  · exact List.prefix_rfl
  · exact List.prefix_append _ _

theorem Plan.mem_demand (plan : Plan) (dest : ℤ) : dest ∈ (plan.demand dest).dests := by
  unfold Plan.demand
  split
  · assumption
  · simp

theorem Plan.nodup_demand {plan : Plan} (h : plan.dests.Nodup) (dest : ℤ) :
    (plan.demand dest).dests.Nodup := by
  unfold Plan.demand
  split
  · exact h
  · next hmem =>
    refine List.nodup_append.mpr ⟨h, List.nodup_singleton _, ?_⟩
    rintro a ha b hb rfl
    exact hmem (List.mem_singleton.mp hb ▸ ha)

variable (arch base resolve obj) in
/-- A step adds at most the destination it asks for. -/
theorem Plan.step_dests (plan : Plan) (x : Site) :
    (plan.step arch base resolve obj x).1.dests = plan.dests ∨
      ∃ dest, plan.request arch base resolve obj x = .veneer dest ∧
        (plan.step arch base resolve obj x).1.dests = (plan.demand dest).dests := by
  rcases hreq : plan.request arch base resolve obj x with bytes | dest | _
  · exact Or.inl (by rw [Plan.step_of_patch hreq]; rfl)
  · refine Or.inr ⟨dest, rfl, ?_⟩
    rcases hbytes : hopBytes arch plan.image x.off ((plan.demand dest).slotOf obj dest)
      with _ | bytes
    · rw [Plan.step_of_no_hop hreq hbytes]
    · rw [Plan.step_of_hop hreq hbytes]
      rfl
  · exact Or.inl (by rw [Plan.step_of_refused hreq])

variable (arch base resolve obj) in
/-- The destinations of a run keep their slots. -/
theorem Plan.dests_prefix_run (plan : Plan) (xs : List Site) :
    plan.dests <+: (plan.run arch base resolve obj xs).1.dests := by
  induction xs generalizing plan with
  | nil => exact List.prefix_rfl
  | cons x rest ih =>
    have hstep : plan.dests <+: (plan.step arch base resolve obj x).1.dests := by
      rcases plan.step_dests arch base resolve obj x
        with h | ⟨dest, -, h⟩
      · rw [h]
      · rw [h]
        exact plan.dests_prefix_demand dest
    rw [Plan.run]
    split
    · exact hstep.trans (ih _)
    · exact hstep

theorem Plan.nodup_run {plan : Plan} (h : plan.dests.Nodup) (xs : List Site) :
    (plan.run arch base resolve obj xs).1.dests.Nodup := by
  induction xs generalizing plan with
  | nil => exact h
  | cons x rest ih =>
    have hstep : (plan.step arch base resolve obj x).1.dests.Nodup := by
      rcases plan.step_dests arch base resolve obj x
        with hd | ⟨dest, -, hd⟩
      · rwa [hd]
      · rw [hd]
        exact Plan.nodup_demand h dest
    rw [Plan.run]
    split
    · exact ih hstep
    · exact hstep

/-- A run over fields without bytes asks for no veneer. -/
theorem Plan.run_dests_of_width {xs : List Site} (h : ∀ x ∈ xs, x.reloc.width = 0) (plan : Plan) :
    (plan.run arch base resolve obj xs).1.dests = plan.dests := by
  induction xs generalizing plan with
  | nil => rfl
  | cons x rest ih =>
    have hstep : (plan.step arch base resolve obj x).1.dests = plan.dests := by
      rcases plan.step_dests arch base resolve obj x
        with hd | ⟨dest, hreq, -⟩
      · exact hd
      · have hwidth := Plan.request_veneer_width hreq
        have hzero := h x List.mem_cons_self
        omega
    rw [Plan.run]
    split
    · rw [ih fun y hy => h y (List.mem_cons_of_mem x hy), hstep]
    · exact hstep

/-- A run that applies everything, cut in two. -/
theorem Plan.run_append {xs ys : List Site} {plan : Plan}
    (h : (plan.run arch base resolve obj (xs ++ ys)).2 = true) :
    (plan.run arch base resolve obj xs).2 = true ∧
      plan.run arch base resolve obj (xs ++ ys) =
        (plan.run arch base resolve obj xs).1.run arch base resolve obj ys := by
  induction xs generalizing plan with
  | nil => exact ⟨rfl, rfl⟩
  | cons x rest ih =>
    rw [List.cons_append, Plan.run] at h ⊢
    rw [Plan.run]
    split at h
    · next hacc =>
      rw [if_pos hacc, if_pos hacc]
      exact ih h
    · cases h

theorem Plan.run_cons {ys : List Site} {plan : Plan}
    (h : (plan.run arch base resolve obj (x :: ys)).2 = true) :
    (plan.step arch base resolve obj x).2 = true ∧
      plan.run arch base resolve obj (x :: ys) =
        (plan.step arch base resolve obj x).1.run arch base resolve obj ys := by
  rw [Plan.run] at h ⊢
  split at h
  · next hacc => exact ⟨hacc, if_pos hacc⟩
  · cases h

end

/-! ## Fields of branches -/

/-- The upper six bits of a word, and a field of 26 bits. -/
theorem land_mask26_lor {x y : ℕ} (hx : x < 2 ^ 32) (hy : y < 2 ^ 26) :
    (x &&& 0xFC000000) ||| y = 2 ^ 26 * (x / 2 ^ 26) + y := by
  rw [Nat.two_pow_add_eq_or_of_lt hy]
  congr 1
  apply Nat.eq_of_testBit_eq
  intro i
  rw [Nat.testBit_and, Nat.testBit_two_pow_mul, Nat.testBit_div_two_pow,
    show (0xFC000000 : ℕ) = 2 ^ 26 * (2 ^ 6 - 1) from rfl, Nat.testBit_two_pow_mul,
    Nat.testBit_two_pow_sub_one]
  by_cases hi : 26 ≤ i
  · rcases lt_or_ge i 32 with hlt | hge
    · simp [hi]
      omega
    · have hbit : x.testBit i = false :=
        Nat.testBit_lt_two_pow (hx.trans_le (Nat.pow_le_pow_right (by decide) hge))
      simp [hi, hbit]
  · simp [hi]

theorem insnAt_lt (image : ℕ → UInt8) (off : ℕ) : insnAt image off < 2 ^ 32 := by
  have h := leValue_lt (slice image off 4)
  rw [slice_length] at h
  exact h

theorem insnAt_put (image : ℕ → UInt8) (off : ℕ) {bytes : List UInt8} (h : bytes.length = 4) :
    insnAt (overlay image off bytes) off = leValue bytes := by
  unfold insnAt
  rw [← h, slice_overlay]

/-- The word of a branch with a new displacement: the opcode stays. -/
theorem leValue_call26Bytes (image : ℕ → UInt8) (off : ℕ) (displacement : ℤ) :
    leValue (call26Bytes image off displacement) / 2 ^ 26 = insnAt image off / 2 ^ 26 ∧
      wrapSigned 26 (leValue (call26Bytes image off displacement)) =
        wrapSigned 26 (displacement / 4) := by
  have himm := wrapUnsigned_lt 26 (displacement / 4)
  have himm' := wrapUnsigned_nonneg 26 (displacement / 4)
  have hword := insnAt_lt image off
  have hval : leValue (call26Bytes image off displacement) =
      2 ^ 26 * (insnAt image off / 2 ^ 26) + (wrapUnsigned 26 (displacement / 4)).toNat := by
    unfold call26Bytes insnBytes
    rw [leValue_leBytes, land_mask26_lor hword (by omega)]
    exact Nat.mod_eq_of_lt (by omega)
  constructor
  · rw [hval]
    omega
  · rw [hval, Nat.cast_add, Nat.cast_mul, Int.toNat_of_nonneg himm']
    exact (Int.mul_add_bmod_self_left _ _ _).trans (wrapSigned_wrapUnsigned 26 _)

/-- A field of 32 bits holds a displacement that fits. -/
theorem wrapSigned_toLeBytes {v : ℤ} (h : fitsI32 v) :
    wrapSigned 32 (leValue (toLeBytes 4 v)) = v := by
  have hlt : wrapUnsigned (8 * 4) v < 2 ^ 32 := wrapUnsigned_lt 32 v
  have hlo : 0 ≤ wrapUnsigned (8 * 4) v := wrapUnsigned_nonneg 32 v
  unfold toLeBytes
  rw [leValue_leBytes, Nat.mod_eq_of_lt (by omega), Int.toNat_of_nonneg hlo]
  exact (wrapSigned_wrapUnsigned 32 v).trans (wrapSigned_of_bounds (by decide) h.1 h.2)

/-- The displacements that a branch reaches directly. -/
def InReach : Arch → ℤ → Prop
  | .x86_64, e => fitsI32 e
  | .aarch64, e => -call26Max ≤ e ∧ e ≤ call26Max

/-- The displacement of a branch to a veneer. -/
def hopDisplacement : Arch → ℕ → ℕ → ℤ
  | .x86_64, off, v => wrapSigned 64 (v - 4 - off)
  | .aarch64, off, v => wrapSigned 64 (v - off)

/-- The bytes of a branch with a displacement. -/
def branchBytes : Arch → (ℕ → UInt8) → ℕ → ℤ → List UInt8
  | .x86_64, _, _, e => toLeBytes 4 e
  | .aarch64, image, off, e => call26Bytes image off e

/-- The field of a branch holds a displacement, as far as the field goes. -/
def Holds : Arch → (ℕ → UInt8) → ℕ → ℤ → Prop
  | .x86_64, image, off, e => wrapSigned 32 (insnAt image off) = e
  | .aarch64, image, off, e => wrapSigned 26 (insnAt image off) = wrapSigned 26 (e / 4)

theorem Holds.congr {e : ℤ} (h : ∀ i, off ≤ i → i < off + 4 → image' i = image i)
    (hh : Holds arch image off e) : Holds arch image' off e := by
  cases arch with
  | x86_64 | aarch64 =>
    simp only [Holds] at hh ⊢
    rwa [insnAt_congr h]

variable (arch) in
theorem branchBytes_length (image : ℕ → UInt8) (off : ℕ) (e : ℤ) :
    (branchBytes arch image off e).length = 4 := by
  cases arch
  · exact toLeBytes_length _ _
  · exact insnBytes_length _ _ _ _

/-- A branch stays a branch, and holds the displacement. -/
theorem holds_branchBytes (image : ℕ → UInt8) (off : ℕ) {e : ℤ}
    (he : arch = .x86_64 → fitsI32 e) (hb : isBranchInsn arch image off) :
    Holds arch (overlay image off (branchBytes arch image off e)) off e ∧
      isBranchInsn arch (overlay image off (branchBytes arch image off e)) off := by
  have hword := insnAt_put image off (branchBytes_length arch image off e)
  cases arch with
  | x86_64 =>
    constructor
    · simp only [Holds]
      rw [hword]
      exact wrapSigned_toLeBytes (he rfl)
    · have hopcode : overlay image off (branchBytes .x86_64 image off e) (off - 1) =
          image (off - 1) := overlay_of_disjoint (Or.inl (by have := hb.1; omega))
      simp only [isBranchInsn, hopcode]
      exact hb
  | aarch64 =>
    obtain ⟨hop, hfield⟩ := leValue_call26Bytes image off e
    constructor
    · simp only [Holds]
      rw [hword]
      exact hfield
    · simp only [isBranchInsn]
      rw [hword]
      simp only [branchBytes]
      rw [hop]
      exact hb

theorem hopBytes_eq {off v : ℕ} {bytes : List UInt8} (h : hopBytes arch image off v = some bytes) :
    bytes = branchBytes arch image off (hopDisplacement arch off v) ∧
      (arch = .x86_64 → fitsI32 (hopDisplacement arch off v)) := by
  cases arch with
  | x86_64 =>
    simp only [hopBytes] at h
    split at h
    · next hfits =>
      cases h
      exact ⟨rfl, fun _ => hfits⟩
    · cases h
  | aarch64 =>
    cases h
    exact ⟨rfl, fun h => by cases h⟩

/-- A branch is patched when its destination is in reach, and sent through a veneer when not. -/
theorem request_of_branch (patch target addend : ℤ) (ht : isBranchType arch rType)
    (hb : isBranchInsn arch image off) :
    (InReach arch (wrapSigned 64 (target + addend - patch)) ∧
      request arch image off patch target addend rType =
        .patch (branchBytes arch image off (wrapSigned 64 (target + addend - patch)))) ∨
    (¬ InReach arch (wrapSigned 64 (target + addend - patch)) ∧
      request arch image off patch target addend rType =
        .veneer (branchDest arch target addend)) := by
  cases arch with
  | x86_64 =>
    have hreq : request .x86_64 image off patch target addend rType =
        if fitsI32 (wrapSigned 64 (target + addend - patch)) then
          .patch (toLeBytes 4 (wrapSigned 64 (target + addend - patch)))
        else if isBranchType .x86_64 rType ∧ isBranchInsn .x86_64 image off then
          .veneer (branchDest .x86_64 target addend)
        else .refused := by
      have hcase : rType = .x86Pc32 ∨ rType = .x86Plt32 := by simpa [isBranchType] using ht
      rcases hcase with rfl | rfl <;> rfl
    rw [hreq]
    by_cases hfits : fitsI32 (wrapSigned 64 (target + addend - patch))
    · exact Or.inl ⟨hfits, if_pos hfits⟩
    · exact Or.inr ⟨hfits, (if_neg hfits).trans (if_pos ⟨ht, hb⟩)⟩
  | aarch64 =>
    have hreq : request .aarch64 image off patch target addend rType =
        if -call26Max ≤ wrapSigned 64 (target + addend - patch) ∧
            wrapSigned 64 (target + addend - patch) ≤ call26Max then
          .patch (call26Bytes image off (wrapSigned 64 (target + addend - patch)))
        else .veneer (branchDest .aarch64 target addend) := by
      have hcase : rType = .aarch64Call26 ∨ rType = .aarch64Jump26 := by
        simpa [isBranchType] using ht
      rcases hcase with rfl | rfl <;> rfl
    rw [hreq]
    by_cases hfits : -call26Max ≤ wrapSigned 64 (target + addend - patch) ∧
        wrapSigned 64 (target + addend - patch) ≤ call26Max
    · exact Or.inl ⟨hfits, if_pos hfits⟩
    · exact Or.inr ⟨hfits, if_neg hfits⟩

/-- A branch in a plan: the field holds the displacement to the destination or to its veneer. -/
structure BranchPlanned (arch : Arch) (base : ℤ) (obj : ObjectFile) (plan : Plan) (off : ℕ)
    (target addend : ℤ) : Prop where
  insn : isBranchInsn arch plan.image off
  field : (InReach arch (wrapSigned 64 (target + addend - (base + off))) ∧
      Holds arch plan.image off (wrapSigned 64 (target + addend - (base + off)))) ∨
    (¬ InReach arch (wrapSigned 64 (target + addend - (base + off))) ∧
      branchDest arch target addend ∈ plan.dests ∧
      Holds arch plan.image off
        (hopDisplacement arch off (plan.slotOf obj (branchDest arch target addend))))

/-- The step of a branch. -/
theorem branch_step {x : Site} (hacc : (plan.step arch base resolve obj x).2 = true)
    (hb : isBranchInsn arch plan.image x.off)
    (ht : ∃ rType, x.reloc.flags = some rType ∧ isBranchType arch rType) :
    ∃ target, targetAddr base resolve (layout obj.sections) obj x.reloc.target = .ok target ∧
      BranchPlanned arch base obj (plan.step arch base resolve obj x).1 x.off target
        x.reloc.addend := by
  rcases plan.request_cases arch base resolve obj x
    with hr | ⟨target, rType, htarget, hflags, hr⟩
  · rw [Plan.step_of_refused hr] at hacc
    cases hacc
  · obtain ⟨rType', hflags', htype⟩ := ht
    rw [hflags] at hflags'
    cases hflags'
    refine ⟨target, htarget, ?_⟩
    rcases request_of_branch (base + x.off) target x.reloc.addend htype hb with
      ⟨hreach, hreq⟩ | ⟨hreach, hreq⟩
    · have he : arch = .x86_64 →
          fitsI32 (wrapSigned 64 (target + x.reloc.addend - (base + x.off))) := by
        rintro rfl
        exact hreach
      obtain ⟨hholds, hinsn⟩ := holds_branchBytes plan.image x.off he hb
      rw [Plan.step_of_patch (hr.trans hreq)]
      exact ⟨hinsn, Or.inl ⟨hreach, hholds⟩⟩
    · rcases hbytes : hopBytes arch plan.image x.off
        ((plan.demand (branchDest arch target x.reloc.addend)).slotOf obj
          (branchDest arch target x.reloc.addend)) with _ | bytes
      · rw [Plan.step_of_no_hop (hr.trans hreq) hbytes] at hacc
        cases hacc
      · obtain ⟨rfl, he⟩ := hopBytes_eq hbytes
        obtain ⟨hholds, hinsn⟩ := holds_branchBytes plan.image x.off he hb
        rw [Plan.step_of_hop (hr.trans hreq) hbytes]
        unfold Plan.put
        rw [Plan.demand_image]
        exact ⟨hinsn, Or.inr ⟨hreach, Plan.mem_demand _ _, hholds⟩⟩

/-- The slot of a destination does not change. -/
theorem Plan.slotOf_of_prefix {plan' : Plan} (h : plan.dests <+: plan'.dests) {dest : ℤ}
    (hmem : dest ∈ plan.dests) : plan'.slotOf obj dest = plan.slotOf obj dest := by
  obtain ⟨rest, hrest⟩ := h
  unfold Plan.slotOf
  rw [← hrest, List.idxOf_append_of_mem hmem]

/-- What a plan has put in the field of a branch stays there. -/
theorem BranchPlanned.run {off : ℕ} {target addend : ℤ}
    (h : BranchPlanned arch base obj plan off target addend) {xs : List Site}
    (hxs : ∀ x ∈ xs, x.Spares arch off) :
    BranchPlanned arch base obj (plan.run arch base resolve obj xs).1 off target addend := by
  have hframe : ∀ i, insnStart arch off ≤ i → i < off + 4 →
      (plan.run arch base resolve obj xs).1.image i = plan.image i := by
    intro i hlo hhi
    refine Plan.run_frame (fun x hx => ?_) plan
    have := hxs x hx
    unfold Site.Spares at this
    omega
  have hstart := insnStart_le arch off
  have hframe' : ∀ i, off ≤ i → i < off + 4 →
      (plan.run arch base resolve obj xs).1.image i = plan.image i :=
    fun i hlo hhi => hframe i (hstart.trans hlo) hhi
  have hdests := plan.dests_prefix_run arch base resolve obj xs
  refine ⟨(isBranchInsn_congr _ hframe).mpr h.insn, ?_⟩
  rcases h.field with ⟨hreach, hholds⟩ | ⟨hreach, hmem, hholds⟩
  · exact Or.inl ⟨hreach, hholds.congr hframe'⟩
  · refine Or.inr ⟨hreach, hdests.subset hmem, ?_⟩
    rw [Plan.slotOf_of_prefix hdests hmem]
    exact hholds.congr hframe'

/-- Every branch of an object whose relocations are all applied. -/
theorem branch_planned (hobj : obj.WellFormed arch) (hp : PlacedAt obj s off)
    (hr : r ∈ s.relocations) (hb : r.IsBranch arch s)
    (hacc : (planned arch base resolve obj).2 = true) :
    ∃ target, targetAddr base resolve (layout obj.sections) obj r.target = .ok target ∧
      BranchPlanned arch base obj (planned arch base resolve obj).1 (off + r.offset) target
        r.addend := by
  obtain ⟨m, hm, hlen, hcopy⟩ := hobj.loaded_ok
  have hstart : (Plan.start arch obj).image = m.get := by rw [Plan.start, hm]
  have hfield := hobj.field s hp.mem hp.loadable r hr
  rw [hb.width] at hfield
  have hsize := hobj.size s hp.mem hp.loadable
  -- the instruction as loaded
  have hinsn : isBranchInsn arch (Plan.start arch obj).image (off + r.offset) := by
    rw [hstart]
    refine (isBranchInsn_shift (fun i _ hi => ?_) hb.offset_ne).mpr hb.2
    exact slice_eq_get (hcopy s off hp) (by omega)
  obtain ⟨before, after, hsites, hspare⟩ := sites_split hobj hp hr hb
  unfold planned at hacc ⊢
  rw [hsites] at hacc ⊢
  obtain ⟨-, happend⟩ := Plan.run_append hacc
  rw [happend] at hacc ⊢
  obtain ⟨hstep, hcons⟩ := Plan.run_cons hacc
  rw [hcons]
  have hframe : ∀ i, insnStart arch (off + r.offset) ≤ i → i < off + r.offset + 4 →
      ((Plan.start arch obj).run arch base resolve obj before).1.image i =
        (Plan.start arch obj).image i := by
    intro i hlo hhi
    refine Plan.run_frame (fun x hx => ?_) _
    have := hspare x (List.mem_append_left _ hx)
    unfold Site.Spares at this
    omega
  obtain ⟨target, htarget, hplanned⟩ := branch_step hstep ((isBranchInsn_congr _ hframe).mpr hinsn)
    hb.1
  exact ⟨target, htarget, hplanned.run fun x hx => hspare x (List.mem_append_right _ hx)⟩

/-! ## Where branches land -/

/-- A wrapped number differs by a multiple of `2^64`. -/
theorem wrapSigned_spec (x : ℤ) :
    ∃ k, wrapSigned 64 x = x + 2 ^ 64 * k ∧ -2 ^ 63 ≤ wrapSigned 64 x ∧
      wrapSigned 64 x < 2 ^ 63 := by
  have hbounds := wrapSigned_bounds (w := 64) (by decide) x
  have hmod : wrapUnsigned 64 (wrapSigned 64 x) = wrapUnsigned 64 x := wrapUnsigned_wrapSigned 64 x
  unfold wrapUnsigned at hmod
  exact ⟨(wrapSigned 64 x - x) / 2 ^ 64, by omega, hbounds⟩

/-- Addresses are numbers up to multiples of `2^64`. -/
theorem wrapUnsigned_eq_iff {x y : ℤ} :
    wrapUnsigned 64 x = wrapUnsigned 64 y ↔ ∃ k, x = y + 2 ^ 64 * k := by
  unfold wrapUnsigned
  constructor
  · intro h
    exact ⟨(x - y) / 2 ^ 64, by omega⟩
  · rintro ⟨k, rfl⟩
    omega

theorem Follows.mem_offsets (h : Follows arch obj m p plan) {v : ℕ} :
    v ∈ p.offsets ↔ ∃ i dest, plan.dests[i]? = some dest ∧ v = veneerBase obj + i * veneerSize := by
  rw [h.pool]
  simp only [VeneerPool.offsets, veneerMap, List.map_map, List.mem_map, List.mem_zipIdx_iff_getElem?,
    Prod.exists, Function.comp]
  constructor
  · rintro ⟨dest, i, hget, rfl⟩
    exact ⟨i, dest, hget, rfl⟩
  · rintro ⟨i, dest, hget, rfl⟩
    exact ⟨dest, i, hget, rfl⟩

theorem Follows.offset_bounds (h : Follows arch obj m p plan) {v : ℕ} (hv : v ∈ p.offsets) :
    veneerBase obj ≤ v ∧ v + veneerSize ≤ m.len := by
  obtain ⟨i, dest, hget, rfl⟩ := h.mem_offsets.mp hv
  have hi : i < plan.dests.length := (List.getElem?_eq_some_iff.mp hget).1
  have hslots := h.slots
  rw [h.len, mappingLen]
  unfold veneerSize
  omega

/-- The slot of a destination holds it. -/
theorem Follows.slotOf_mem (h : Follows arch obj m p plan) {dest : ℤ} (hmem : dest ∈ plan.dests) :
    plan.slotOf obj dest ∈ p.offsets ∧
      veneerDest arch m.get (plan.slotOf obj dest) = some dest := by
  have hget := List.getElem?_idxOf hmem
  exact ⟨h.mem_offsets.mpr ⟨_, dest, hget, rfl⟩, h.held _ dest hget⟩

/-- No other slot holds it. -/
theorem Follows.eq_slotOf (h : Follows arch obj m p plan) (hnodup : plan.dests.Nodup) {v : ℕ}
    (hv : v ∈ p.offsets) {dest : ℤ} (hheld : veneerDest arch m.get v = some dest) :
    dest ∈ plan.dests ∧ v = plan.slotOf obj dest := by
  obtain ⟨i, dest', hget, rfl⟩ := h.mem_offsets.mp hv
  rw [h.held i dest' hget] at hheld
  cases hheld
  obtain ⟨hlt, hd⟩ := List.getElem?_eq_some_iff.mp hget
  refine ⟨List.mem_of_getElem? hget, ?_⟩
  unfold Plan.slotOf
  rw [← hd, hnodup.idxOf_getElem]

theorem branchTarget_x86 {e : ℤ} (hb : isBranchInsn .x86_64 image off)
    (he : Holds .x86_64 image off e) :
    branchTarget .x86_64 base image off = some (wrapUnsigned 64 (base + off + 4 + e)) := by
  simp only [Holds] at he
  rw [branchTarget, if_pos hb, he]

theorem branchTarget_aarch64 {e : ℤ} (hb : isBranchInsn .aarch64 image off)
    (he : Holds .aarch64 image off e) :
    branchTarget .aarch64 base image off =
      some (wrapUnsigned 64 (base + off + 4 * wrapSigned 26 (e / 4))) := by
  simp only [Holds] at he
  rw [branchTarget, if_pos hb, he]

variable (arch base) in
theorem branchTarget_congr (off : ℕ) (h : ∀ i, i < off + 4 → image' i = image i) :
    branchTarget arch base image' off = branchTarget arch base image off := by
  have hinsn := isBranchInsn_congr arch fun i _ hi => h i hi
  have hword := insnAt_congr fun i _ hi => h i hi
  unfold branchTarget
  by_cases hb : isBranchInsn arch image off
  · rw [if_pos hb, if_pos (hinsn.mpr hb), hword]
  · rw [if_neg hb, if_neg fun h => hb (hinsn.mp h)]

/-- On x86-64 every branch lands. -/
theorem BranchPlanned.lands_x86 {target addend : ℤ}
    (h : BranchPlanned .x86_64 base obj plan off target addend)
    (hfollow : Follows .x86_64 obj m p plan) (hoff : off + 4 ≤ veneerBase obj) :
    Lands .x86_64 base m p off (branchDest .x86_64 target addend) := by
  have hcongr := branchTarget_congr .x86_64 base off fun i hi =>
    hfollow.image i (by omega)
  unfold Lands
  rw [hcongr]
  rcases h.field with ⟨-, hholds⟩ | ⟨-, hmem, hholds⟩
  · left
    rw [branchTarget_x86 h.insn hholds]
    obtain ⟨k, hk, -⟩ := wrapSigned_spec (target + addend - (base + off))
    rw [hk]
    exact congrArg some (wrapUnsigned_eq_iff.mpr ⟨k, by omega⟩)
  · right
    obtain ⟨hv, hheld⟩ := hfollow.slotOf_mem hmem
    refine ⟨_, hv, ?_, hheld⟩
    rw [branchTarget_x86 h.insn hholds]
    simp only [hopDisplacement]
    obtain ⟨k, hk, -⟩ := wrapSigned_spec
      ((plan.slotOf obj (branchDest .x86_64 target addend) : ℤ) - 4 - off)
    rw [hk]
    exact congrArg some (wrapUnsigned_eq_iff.mpr ⟨k, by omega⟩)

theorem wrapSigned_branchDest (target addend patch : ℤ) :
    wrapSigned 64 (branchDest .aarch64 target addend - patch) =
      wrapSigned 64 (target + addend - patch) := by
  have hpow : (2 : ℤ) ^ 64 = ((2 ^ 64 : ℕ) : ℤ) := by norm_num
  unfold branchDest wrapUnsigned wrapSigned
  rw [hpow, Int.emod_sub_bmod]

/-- On aarch64 a branch lands exactly when its displacement reaches. -/
theorem BranchPlanned.lands_aarch64 {target addend : ℤ}
    (h : BranchPlanned .aarch64 base obj plan off target addend)
    (hfollow : Follows .aarch64 obj m p plan) (hnodup : plan.dests.Nodup)
    (hoff : off + 4 ≤ veneerBase obj) (hlen : m.len < 2 ^ 63)
    (hplan : plan = (planned .aarch64 base resolve obj).1) :
    Lands .aarch64 base m p off (branchDest .aarch64 target addend) ↔
      Reaches .aarch64 base resolve obj off (branchDest .aarch64 target addend) := by
  have hcongr := branchTarget_congr .aarch64 base off fun i hi =>
    hfollow.image i (by omega)
  have hdest := branchDest_bounds .aarch64 target addend
  have hfield := h.field
  obtain ⟨k, hk, hlo, hhi⟩ := wrapSigned_spec (target + addend - (base + off))
  have hmod : ∃ j, branchDest .aarch64 target addend = target + addend + 2 ^ 64 * j :=
    ⟨-((target + addend) / 2 ^ 64), by simp only [branchDest, wrapUnsigned]; omega⟩
  unfold Lands Reaches hopOf
  rw [hcongr, wrapSigned_branchDest, ← hplan]
  generalize branchDest .aarch64 target addend = dest at *
  generalize wrapSigned 64 (target + addend - (base + off)) = offset at *
  obtain ⟨j, rfl⟩ := hmod
  simp only
  -- veneers lie in the mapping
  have hslot : ∀ v ∈ p.offsets, veneerBase obj ≤ v ∧ v < 2 ^ 63 := by
    intro v hv
    obtain ⟨hlo, hhi⟩ := hfollow.offset_bounds hv
    unfold veneerSize at hhi
    exact ⟨hlo, by omega⟩
  simp only [InReach, call26Max] at hfield
  unfold call26Max
  rcases hfield with ⟨hreach, hholds⟩ | ⟨hreach, hmem, hholds⟩
  · rw [if_pos hreach, branchTarget_aarch64 h.insn hholds,
      wrapSigned_of_bounds (by decide) (by omega) (by omega)]
    constructor
    · rintro (hdirect | ⟨v, hv, htarget, hheld⟩)
      · left
        have heq := Option.some.inj hdirect
        unfold wrapUnsigned at heq
        omega
      · right
        obtain ⟨hmem, rfl⟩ := hfollow.eq_slotOf hnodup hv hheld
        obtain ⟨hvlo, hvhi⟩ := hslot _ hv
        obtain ⟨i, hi⟩ := wrapUnsigned_eq_iff.mp (Option.some.inj htarget)
        exact ⟨hmem, by omega⟩
    · rintro (hdvd | ⟨hmem, heq⟩)
      · left
        refine congrArg some ?_
        unfold wrapUnsigned
        omega
      · right
        obtain ⟨hv, hheld⟩ := hfollow.slotOf_mem hmem
        refine ⟨_, hv, congrArg some (wrapUnsigned_eq_iff.mpr ⟨0, ?_⟩), hheld⟩
        omega
  · obtain ⟨hv, hheld⟩ := hfollow.slotOf_mem hmem
    obtain ⟨hvlo, hvhi⟩ := hslot _ hv
    simp only [hopDisplacement] at hholds
    rw [wrapSigned_of_bounds (by decide) (by omega) (by omega)] at hholds
    have hunique : ∀ v ∈ p.offsets, veneerDest .aarch64 m.get v = some
        (target + addend + 2 ^ 64 * j) → v = plan.slotOf obj (target + addend + 2 ^ 64 * j) :=
      fun v hv hheld => (hfollow.eq_slotOf hnodup hv hheld).2
    rw [if_neg hreach, branchTarget_aarch64 h.insn hholds]
    generalize plan.slotOf obj (target + addend + 2 ^ 64 * j) = slot at *
    obtain ⟨hfield_lo, hfield_hi⟩ := wrapSigned_bounds (w := 26) (by decide)
      (((slot : ℤ) - off) / 4)
    constructor
    · rintro (hdirect | ⟨v, hv', htarget, hheld'⟩)
      · right
        have heq := Option.some.inj hdirect
        unfold wrapUnsigned at heq
        omega
      · left
        obtain rfl := hunique v hv' hheld'
        obtain ⟨i, hi⟩ := wrapUnsigned_eq_iff.mp (Option.some.inj htarget)
        refine ⟨?_, ?_, ?_⟩
        · omega
        · omega
        · omega
    · rintro (⟨hdvd, henc_lo, henc_hi⟩ | ⟨heq, hfield⟩)
      · right
        refine ⟨_, hv, congrArg some (wrapUnsigned_eq_iff.mpr ⟨0, ?_⟩), hheld⟩
        rw [wrapSigned_of_bounds (by decide) (by omega) (by omega)]
        omega
      · left
        refine congrArg some ?_
        rw [hfield]
        unfold wrapUnsigned
        omega

/-! ## The whole load -/

/-- A name that is not found is an error, so only relocation panics. -/
theorem jitLoad_panic_iff (name : String) :
    jitLoad arch base resolve obj name = .error .panic ↔
      relocated arch base resolve obj = .error .panic := by
  constructor
  · intro h
    rcases bind_eq_error h with h | ⟨out, -, h⟩
    · exact h
    · rcases bind_eq_error h with h | ⟨off, -, h⟩
      · cases orError_error h
      · cases h
  · intro h
    rw [jitLoad, h]
    rfl

/-- Without bytes to load nothing is relocated, and the plan asks for nothing. -/
theorem planned_of_empty (hobj : obj.WellFormed arch) (h : (layout obj.sections).total = 0) :
    (planned arch base resolve obj).1.dests = [] := by
  obtain ⟨m, -, hstart, -⟩ := start_follows hobj
  unfold planned
  rw [Plan.run_dests_of_width, hstart]
  intro x hx
  have hin := sites_within hobj hx
  unfold Site.Within at hin
  omega

variable (base resolve) in
/-- The load follows the plan. -/
theorem relocated_outcome (hobj : obj.WellFormed arch) (h : (layout obj.sections).total ≠ 0) :
    Outcome arch obj (relocated arch base resolve obj) (planned arch base resolve obj) := by
  obtain ⟨m, hm, hout⟩ := applySites_outcome base resolve hobj
  rw [relocated, if_neg h, hm]
  exact hout

theorem relocated_ok (hobj : obj.WellFormed arch)
    (h : relocated arch base resolve obj = .ok (m, p)) :
    (planned arch base resolve obj).2 = true ∧
      Follows arch obj m p (planned arch base resolve obj).1 := by
  have hne : (layout obj.sections).total ≠ 0 := by
    intro h0
    rw [relocated, if_pos h0] at h
    cases h
  have hout := relocated_outcome base resolve hobj hne
  rw [h, Outcome] at hout
  split at hout
  · cases hout
  · split at hout
    · next hacc =>
      obtain ⟨m', p', heq, hfollow⟩ := hout
      cases heq
      exact ⟨hacc, hfollow⟩
    · cases hout

theorem relocated_panic_iff (hobj : obj.WellFormed arch) :
    relocated arch base resolve obj = .error .panic ↔
      veneerSlots arch obj < (planned arch base resolve obj).1.dests.length := by
  by_cases h0 : (layout obj.sections).total = 0
  · rw [planned_of_empty hobj h0, relocated, if_pos h0]
    exact ⟨nofun, fun h => absurd h (Nat.not_lt_zero _)⟩
  · have hout := relocated_outcome base resolve hobj h0
    rw [Outcome] at hout
    split at hout
    · next hfull => exact ⟨fun _ => hfull, fun _ => hout⟩
    · next hfree =>
      refine ⟨fun hpanic => ?_, fun hfull => absurd hfull hfree⟩
      split at hout
      · obtain ⟨m, p, heq, -⟩ := hout
        rw [hpanic] at heq
        cases heq
      · rw [hpanic] at hout
        cases hout

theorem planned_nodup (arch : Arch) (base : ℤ) (resolve : String → Option ℤ) (obj : ObjectFile) :
    (planned arch base resolve obj).1.dests.Nodup := by
  refine Plan.nodup_run ?_ _
  unfold Plan.start
  split <;> exact List.nodup_nil

/-- Veneers stand in their slots, behind the sections. -/
theorem Follows.veneersApart (hobj : obj.WellFormed arch) (h : Follows arch obj m p plan) :
    VeneersApart obj m p where
  disjoint := by
    rw [h.pool]
    simp only [VeneerPool.offsets, veneerMap, List.map_map]
    refine List.pairwise_map.mpr ?_
    have hidx : plan.dests.zipIdx.Pairwise fun d d' => d.2 < d'.2 := by
      rw [← List.pairwise_map, List.zipIdx_map_snd]
      exact List.pairwise_lt_range'
    refine hidx.imp fun {d d'} hlt => Or.inl ?_
    have hmul : (d.2 + 1) * veneerSize ≤ d'.2 * veneerSize :=
      Nat.mul_le_mul_right _ hlt
    simp only [Function.comp]
    rw [Nat.add_mul, Nat.one_mul] at hmul
    omega
  sections := by
    intro v hv s hs hload off hoff
    have hin := hobj.placed_within ⟨hs, hload, hoff⟩
    have hbase := le_veneerBase obj
    have hbounds := h.offset_bounds hv
    omega
  inside := fun v hv => (h.offset_bounds hv).2

/-- A branch of an applied object, with its place in the mapping. -/
theorem branch_field_within (hobj : obj.WellFormed arch) (hp : PlacedAt obj s off)
    (hr : r ∈ s.relocations) (hb : r.IsBranch arch s) : off + r.offset + 4 ≤ veneerBase obj := by
  have hfield := hobj.field s hp.mem hp.loadable r hr
  have hin := hobj.placed_within hp
  have hbase := le_veneerBase obj
  rw [hb.width] at hfield
  omega

/-- Loading is safe and lands every branch exactly when the destinations out of reach have a slot
    each and every aarch64 branch reaches. -/
theorem jitLoad_loadsSafely_iff (arch : Arch) (base : ℤ) (resolve : String → Option ℤ)
    (obj : ObjectFile) (hobj : obj.WellFormed arch) (hfits : MappingFits arch base obj) :
    LoadsSafely arch base resolve obj ↔ WithinReach arch base resolve obj := by
  constructor
  · intro h
    have hslots : (planned arch base resolve obj).1.dests.length ≤ veneerSlots arch obj := by
      by_contra hfull
      have hpanic := (relocated_panic_iff hobj).mpr (Nat.not_le.mp hfull)
      exact h.noPanic "" ((jitLoad_panic_iff "").mpr hpanic)
    refine ⟨hslots, ?_⟩
    rintro rfl hacc s hs hload off hoff r hr hb target htarget
    have hp : PlacedAt obj s off := ⟨hs, hload, hoff⟩
    have hwithin := branch_field_within hobj hp hr hb
    -- the load succeeds: a branch has bytes, and every relocation is applied
    have hne : (layout obj.sections).total ≠ 0 := by
      have hfield := hobj.field s hs hload r hr
      have hin := hobj.placed_within hp
      rw [hb.width] at hfield
      omega
    have hout := relocated_outcome base resolve hobj hne
    rw [Outcome, if_neg (Nat.not_lt.mpr hslots), if_pos hacc] at hout
    obtain ⟨m, p, hok, hfollow⟩ := hout
    obtain ⟨target', htarget', hplanned⟩ := branch_planned hobj hp hr hb hacc
    rw [htarget] at htarget'
    cases htarget'
    obtain ⟨target', htarget', hlands⟩ := h.lands m p hok s hs hload off hoff r hr hb
    rw [htarget] at htarget'
    cases htarget'
    have hlen : m.len < 2 ^ 63 := by
      rw [hfollow.len]
      exact hfits.len
    exact (hplanned.lands_aarch64 hfollow (planned_nodup _ _ _ _) hwithin hlen rfl).mp hlands
  · intro h
    refine ⟨fun name hpanic => ?_, ?_, ?_⟩
    · have hfull := (relocated_panic_iff hobj).mp ((jitLoad_panic_iff name).mp hpanic)
      exact absurd h.slots (Nat.not_le.mpr hfull)
    · intro m p hok s hs hload off hoff r hr hb
      obtain ⟨hacc, hfollow⟩ := relocated_ok hobj hok
      have hp : PlacedAt obj s off := ⟨hs, hload, hoff⟩
      have hwithin := branch_field_within hobj hp hr hb
      obtain ⟨target, htarget, hplanned⟩ := branch_planned hobj hp hr hb hacc
      refine ⟨target, htarget, ?_⟩
      cases arch with
      | x86_64 => exact hplanned.lands_x86 hfollow hwithin
      | aarch64 =>
        have hlen : m.len < 2 ^ 63 := by
          rw [hfollow.len]
          exact hfits.len
        refine (hplanned.lands_aarch64 hfollow (planned_nodup _ _ _ _) hwithin hlen rfl).mpr ?_
        exact h.reaches rfl hacc s hs hload off hoff r hr hb target htarget
    · intro m p hok
      exact (relocated_ok hobj hok).2.veneersApart hobj

/-- A text section of calls to an external function, and the addends of the calls. -/
def callObject (addends : List ℤ) : ObjectFile where
  sections := [{
    index := 1
    loadable := true
    align := 16
    size := 5 * addends.length
    data := (addends.map fun _ => [0xE8, 0, 0, 0, 0]).flatten
    relocations := addends.zipIdx.map fun a => ⟨5 * a.2 + 1, .symbol 1, a.1, some .x86Plt32⟩ }]
  symbols := [⟨1, some "sqrtf", none, 0⟩]

/-- Where the function is: more than 2 GiB away from the mapping. -/
def farSymbol (_ : String) : Option ℤ := some 0x10000

theorem callObject_single_wellFormed : (callObject [-4]).WellFormed .x86_64 where
  size := by decide
  index := by decide
  field := by decide
  apart := by
    intro s hs _
    rw [List.mem_singleton.mp hs]
    exact List.pairwise_singleton _ _

theorem jitLoad_loadsSafely_iff_call :
    (callObject [-4]).WellFormed .x86_64 ∧
      LoadsSafely .x86_64 (2 ^ 46) farSymbol (callObject [-4]) :=
  ⟨callObject_single_wellFormed,
    (jitLoad_loadsSafely_iff .x86_64 (2 ^ 46) farSymbol (callObject [-4])
      callObject_single_wellFormed ⟨by decide, by decide, by decide⟩).mpr
      ⟨by decide, nofun⟩⟩

/-- Two calls with different addends need two veneers, and one slot is counted. -/
theorem jitLoad_loadsSafely_fails :
    ¬ ∀ (arch : Arch) (base : ℤ) (resolve : String → Option ℤ) (obj : ObjectFile),
      obj.WellFormed arch → MappingFits arch base obj → LoadsSafely arch base resolve obj := by
  intro h
  have hwf : (callObject [-4, 0]).WellFormed .x86_64 := by
    refine ⟨by decide, by decide, by decide, ?_⟩
    intro s hs _
    rw [List.mem_singleton.mp hs]
    refine List.Pairwise.cons ?_ (List.pairwise_singleton _ _)
    intro r hr
    rw [List.mem_singleton.mp hr]
    exact ⟨fun _ => Or.inr (by decide), fun _ => Or.inl (by decide)⟩
  have hsafe := h .x86_64 (2 ^ 46) farSymbol (callObject [-4, 0]) hwf
    ⟨by decide, by decide, by decide⟩
  refine hsafe.noPanic "kernel" ((jitLoad_panic_iff _).mpr ?_)
  rfl

end Svod.Runtime.JitLoader
