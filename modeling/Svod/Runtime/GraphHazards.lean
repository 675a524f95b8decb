/-
  Svod.Runtime.GraphHazards

  The hazard edges of a captured graph and its replays (`runtime/src/execution_plan.rs`).

  `GraphHazards.record` is the code's table of ranges, pruned by every write
  that covers them.  `HazardInv` is what survives the pruning: whatever byte an
  earlier kernel has touched, some recorded range still holds that byte, under a
  kernel from which the edges lead back to the earlier one.
-/

import Svod.Lib.Reorder
import Mathlib.Data.List.Sort
import Mathlib.Data.List.Dedup
import Mathlib.Data.List.Induction

namespace Svod.Runtime

open Relation Svod.Lib.Reorder

variable {x : Nat}

/-- A half-open range of byte addresses. -/
structure Range where
  start : Nat
  stop : Nat
deriving DecidableEq, Repr

/-- The byte at address `x` lies in the range. -/
def Range.Mem (r : Range) (x : Nat) : Prop := r.start ≤ x ∧ x < r.stop

instance (r : Range) (x : Nat) : Decidable (r.Mem x) := inferInstanceAs (Decidable (_ ∧ _))

structure GraphHazards where
  /-- Every write not yet fully covered by a later one. -/
  writers : List (Range × Nat)
  /-- Every read since the write that last covered it. -/
  readers : List (Range × Nat)
deriving DecidableEq, Repr

namespace GraphHazards

def overlaps (a b : Range) : Bool := a.start < b.stop && b.start < a.stop

/-- `written` holds the whole of an access. -/
def covered (written : Range) (access : Range × Nat) : Bool :=
  written.start ≤ access.1.start && access.1.stop ≤ written.stop

/-- The kernels of the accesses that overlap `touched`. -/
def hits (accesses : List (Range × Nat)) (touched : Range) : List Nat :=
  (accesses.filter fun a => overlaps a.1 touched).map (·.2)

/-- A write of kernel `e` takes the place of the accesses it covers. -/
def write (e : Nat) (h : GraphHazards) (written : Range) : GraphHazards :=
  { writers := h.writers.filter (!covered written ·) ++ [(written, e)]
    readers := h.readers.filter (!covered written ·) }

/-- The predecessors collected for a kernel, before they are sorted. -/
def collect (h : GraphHazards) (reads writes : List Range) : List Nat :=
  (reads ++ writes).flatMap (hits h.writers) ++ writes.flatMap (hits h.readers)

/-- `GraphHazards::record`: the table afterwards and the predecessors of kernel `e`. -/
def record (h : GraphHazards) (e : Nat) (reads writes : List Range) : GraphHazards × List Nat :=
  let deps := (h.collect reads writes).filter (· ≠ e)
  let h := { h with readers := h.readers ++ reads.map fun r => (r, e) }
  (writes.foldl (write e) h, deps.dedup.insertionSort (· ≤ ·))

end GraphHazards

/-! ## Recording a sequence of kernels -/

/-- The byte ranges one kernel reads and writes. -/
structure Accesses where
  reads : List Range
  writes : List Range
deriving DecidableEq, Repr

/-- One kernel of the walk: its index is the number of kernels before it. -/
def recordKernel (st : GraphHazards × List (List Nat)) (k : Accesses) :
    GraphHazards × List (List Nat) :=
  let (h, deps) := st.1.record st.2.length k.reads k.writes
  (h, st.2 ++ [deps])

/-- The predecessor list of every kernel of a sequence. -/
def hazardDeps (kernels : List Accesses) : List (List Nat) :=
  (kernels.foldl recordKernel (⟨[], []⟩, [])).2

/-! ## The walk over a plan -/

/-- What the walk reads of a prepared kernel: its buffer slots, and which of them it writes. -/
structure PreparedKernel where
  bufferIndices : List Nat
  outputIndices : List Nat
deriving DecidableEq, Repr

inductive PreparedOp where
  | compiledProgram (k : PreparedKernel)
  | other
deriving DecidableEq, Repr

/-- A buffer of a plan; `none` is an address that cannot be resolved. -/
structure PlanBuffer where
  address : Option Nat
  size : Nat
deriving DecidableEq, Repr

structure ExecutionPlan where
  ops : List PreparedOp
  opLevels : List (List Nat)
  buffers : List PlanBuffer
deriving DecidableEq, Repr

/-- Hazard read-set positions: every buffer slot the kernel does not write. -/
def PreparedKernel.readPositions (k : PreparedKernel) : List Nat :=
  (List.range k.bufferIndices.length).filter (· ∉ k.outputIndices)

def PreparedKernel.currentAddresses (k : PreparedKernel) (buffers : List PlanBuffer) :
    Option (List Nat) :=
  k.bufferIndices.mapM fun buffer => do (← buffers[buffer]?).address

/-- The bytes behind one slot; a zero-length view touches none. -/
def PreparedKernel.rangeAt (k : PreparedKernel) (buffers : List PlanBuffer) (addresses : List Nat)
    (j : Nat) : Option Range := do
  let address ← addresses[j]?
  let buffer ← buffers[← k.bufferIndices[j]?]?
  if buffer.size > 0 then some ⟨address, address + buffer.size⟩ else none

def PreparedKernel.accesses (k : PreparedKernel) (buffers : List PlanBuffer) : Option Accesses := do
  let addresses ← k.currentAddresses buffers
  some ⟨k.readPositions.filterMap (k.rangeAt buffers addresses),
    k.outputIndices.filterMap (k.rangeAt buffers addresses)⟩

/-- The accesses of the op at `idx`, when it can be part of a graph. -/
def ExecutionPlan.opAccesses (plan : ExecutionPlan) (idx : Nat) : Option Accesses := do
  match ← plan.ops[idx]? with
  | .compiledProgram k => k.accesses plan.buffers
  | .other => none

/-- The predecessor lists `build_graph` hands to the capture; `none` when it captures nothing. -/
def ExecutionPlan.buildGraph (plan : ExecutionPlan) : Option (List (List Nat)) := do
  let (_, deps) ← plan.opLevels.flatten.foldlM (fun st idx => do
    some (recordKernel st (← plan.opAccesses idx))) (⟨[], []⟩, [])
  some deps

/-! ## Conflicts -/

/-- Kernel `i` is a listed predecessor of kernel `j`. -/
def Dep (deps : List (List Nat)) (j i : Nat) : Prop := ∃ ds, deps[j]? = some ds ∧ i ∈ ds

/-- Some byte is written by one of the two and touched by the other. -/
def Conflict (a b : Accesses) : Prop :=
  ∃ x, (∃ w ∈ a.writes, w.Mem x ∧ ∃ t ∈ b.reads ++ b.writes, t.Mem x) ∨
    (∃ r ∈ a.reads, r.Mem x ∧ ∃ w ∈ b.writes, w.Mem x)

/-! ## The table after a write -/

open GraphHazards

theorem overlaps_of_mem {a b : Range} (ha : a.Mem x) (hb : b.Mem x) : overlaps a b = true := by
  obtain ⟨ha₁, ha₂⟩ := ha
  obtain ⟨hb₁, hb₂⟩ := hb
  simp only [overlaps, Bool.and_eq_true, decide_eq_true_eq]
  omega

/-- A range that a write covers holds no byte outside the write. -/
theorem not_covered_of_mem {written : Range} (access : Range × Nat) (hx : access.1.Mem x)
    (hw : ¬ written.Mem x) : covered written access = false := by
  obtain ⟨h₁, h₂⟩ := hx
  rw [Bool.eq_false_iff]
  intro hc
  simp only [covered, Bool.and_eq_true, decide_eq_true_eq] at hc
  exact hw ⟨by omega, by omega⟩

theorem mem_hits {accesses : List (Range × Nat)} {touched r : Range} {w x : Nat}
    (h : (r, w) ∈ accesses) (hr : r.Mem x) (ht : touched.Mem x) : w ∈ hits accesses touched :=
  List.mem_map.mpr ⟨(r, w), List.mem_filter.mpr ⟨h, overlaps_of_mem hr ht⟩, rfl⟩

variable {writes : List Range} {h : GraphHazards}

/-- Writes leave the bytes they do not touch under the entries that held them. -/
theorem foldl_write_frame {e x : Nat} (hx : ∀ w ∈ writes, ¬ w.Mem x) :
    (∀ r w, (r, w) ∈ h.writers → r.Mem x → (r, w) ∈ (writes.foldl (write e) h).writers) ∧
    ∀ r w, (r, w) ∈ h.readers → r.Mem x → (r, w) ∈ (writes.foldl (write e) h).readers := by
  induction writes generalizing h with
  | nil => exact ⟨fun _ _ hm _ => hm, fun _ _ hm _ => hm⟩
  | cons v writes ih =>
    obtain ⟨hwr, hrd⟩ := ih (fun w hw => hx w (List.mem_cons_of_mem _ hw)) (h := write e h v)
    have hv := hx v List.mem_cons_self
    rw [List.foldl_cons]
    refine ⟨fun r w hm hr => hwr r w ?_ hr, fun r w hm hr => hrd r w ?_ hr⟩
    · have := not_covered_of_mem (r, w) hr hv
      simp [write, hm, this]
    · have := not_covered_of_mem (r, w) hr hv
      simp [write, hm, this]

/-- After the writes of `e`, each byte of them is held under `e`. -/
theorem foldl_write_held {e x : Nat} {v : Range} (hv : v ∈ writes) (hx : v.Mem x) :
    ∃ r, (r, e) ∈ (writes.foldl (write e) h).writers ∧ r.Mem x := by
  induction writes using List.reverseRecOn with
  | nil => cases hv
  | append_singleton writes u ih =>
    rw [List.foldl_append, List.foldl_cons, List.foldl_nil]
    by_cases hu : u.Mem x
    · exact ⟨u, by simp [write], hu⟩
    · -- the last write misses the byte, so an earlier one holds it and is not covered
      have hv' : v ∈ writes := by
        rcases List.mem_append.mp hv with hv | hv
        · exact hv
        · rw [List.mem_singleton.mp hv] at hx
          exact absurd hx hu
      obtain ⟨r, hr, hrx⟩ := ih hv'
      have := not_covered_of_mem (r, e) hrx hu
      exact ⟨r, by simp [write, hr, this], hrx⟩

/-- Entries of the table are old ones or the writing kernel's. -/
theorem foldl_write_kernel {e : Nat} {r : Range} {w : Nat} :
    ((r, w) ∈ (writes.foldl (write e) h).writers → w = e ∨ ∃ r, (r, w) ∈ h.writers) ∧
    ((r, w) ∈ (writes.foldl (write e) h).readers → ∃ r, (r, w) ∈ h.readers) := by
  induction writes using List.reverseRecOn generalizing r with
  | nil => exact ⟨fun hm => .inr ⟨r, hm⟩, fun hm => ⟨r, hm⟩⟩
  | append_singleton writes u ih =>
    rw [List.foldl_append, List.foldl_cons, List.foldl_nil]
    refine ⟨fun hm => ?_, fun hm => ?_⟩
    · simp only [write, List.mem_append, List.mem_filter, List.mem_singleton, Prod.mk.injEq] at hm
      rcases hm with ⟨hm, -⟩ | ⟨-, rfl⟩
      · exact ih.1 hm
      · exact .inl rfl
    · simp only [write, List.mem_filter] at hm
      exact ih.2 hm.1

/-! ## The invariant -/

/-- The table after the kernels `ks` with predecessor lists `deps`. -/
structure HazardInv (ks : List Accesses) (h : GraphHazards) (deps : List (List Nat)) : Prop where
  length : deps.length = ks.length
  back : ∀ j i, Dep deps j i → i < j
  kernels : ∀ r w, (r, w) ∈ h.writers ∨ (r, w) ∈ h.readers → w < ks.length
  written : ∀ (k : Nat) (a : Accesses) (v : Range) (x : Nat), ks[k]? = some a → v ∈ a.writes →
    v.Mem x → ∃ r w, (r, w) ∈ h.writers ∧ r.Mem x ∧ ReflTransGen (Dep deps) w k
  read : ∀ (k : Nat) (a : Accesses) (v : Range) (x : Nat), ks[k]? = some a → v ∈ a.reads →
    v.Mem x → ∃ r w, ((r, w) ∈ h.writers ∨ (r, w) ∈ h.readers) ∧ r.Mem x ∧
      ReflTransGen (Dep deps) w k

theorem Dep.concat {deps : List (List Nat)} {ds : List Nat} {j i : Nat} (h : Dep deps j i) :
    Dep (deps ++ [ds]) j i := by
  obtain ⟨l, hl, hi⟩ := h
  exact ⟨l, by rw [List.getElem?_append_left (List.getElem?_eq_some_iff.mp hl).1]; exact hl, hi⟩

theorem mem_record_deps {e i : Nat} {reads writes : List Range} :
    i ∈ (h.record e reads writes).2 ↔ i ∈ h.collect reads writes ∧ i ≠ e := by
  simp only [record, (List.perm_insertionSort _ _).mem_iff, List.mem_dedup, List.mem_filter,
    decide_eq_true_eq]

/-- Recording a kernel reaches the holder of every byte it writes after another access, or
    reads after a write, and keeps the invariant. -/
theorem HazardInv.recordKernel {ks : List Accesses} {deps : List (List Nat)}
    (hinv : HazardInv ks h deps) (k : Accesses) :
    HazardInv (ks ++ [k]) (recordKernel (h, deps) k).1 (recordKernel (h, deps) k).2 := by
  set e := deps.length with he
  have hlen : e = ks.length := hinv.length
  set ds := (h.record e k.reads k.writes).2 with hds
  set h' := (h.record e k.reads k.writes).1 with hh'
  show HazardInv (ks ++ [k]) h' (deps ++ [ds])
  -- every listed predecessor is the kernel of an entry, hence an earlier kernel
  have hlt : ∀ i ∈ ds, i < e := by
    intro i hi
    rw [hds, mem_record_deps] at hi
    have hfrom : ∀ {acc : List (Range × Nat)} {t : Range}, i ∈ hits acc t → ∃ r, (r, i) ∈ acc := by
      intro acc t hi
      obtain ⟨⟨r, w⟩, hm, rfl⟩ := List.mem_map.mp hi
      exact ⟨r, (List.mem_filter.mp hm).1⟩
    rw [hlen]
    rcases List.mem_append.mp hi.1 with hi | hi
    · obtain ⟨t, -, ht⟩ := List.mem_flatMap.mp hi
      obtain ⟨r, hr⟩ := hfrom ht
      exact hinv.kernels r i (.inl hr)
    · obtain ⟨t, -, ht⟩ := List.mem_flatMap.mp hi
      obtain ⟨r, hr⟩ := hfrom ht
      exact hinv.kernels r i (.inr hr)
  have hself : ∀ i ∈ ds, Dep (deps ++ [ds]) e i := by
    intro i hi
    exact ⟨ds, by rw [he, List.getElem?_concat_length], hi⟩
  have hmono : ∀ {j i}, ReflTransGen (Dep deps) j i → ReflTransGen (Dep (deps ++ [ds])) j i :=
    fun hp => ReflTransGen.mono (fun _ _ hd => Dep.concat hd) _ _ hp
  -- a byte written by `k` is held by `k` afterwards, and `k` leads to its earlier holders
  have hreach : ∀ {t r x w}, t ∈ k.writes → t.Mem x → r.Mem x →
      ((r, w) ∈ h.writers ∨ (r, w) ∈ h.readers) → Dep (deps ++ [ds]) e w := by
    intro t r x w ht htx hrx hm
    have hw : w < e := hlen ▸ hinv.kernels r w hm
    refine hself w (mem_record_deps.mpr ⟨?_, by omega⟩)
    rcases hm with hm | hm
    · exact List.mem_append_left _ (List.mem_flatMap.mpr
        ⟨t, List.mem_append_right _ ht, mem_hits hm hrx htx⟩)
    · exact List.mem_append_right _ (List.mem_flatMap.mpr ⟨t, ht, mem_hits hm hrx htx⟩)
  have hframe : ∀ {x}, (∀ t ∈ k.writes, ¬ t.Mem x) →
      (∀ r w, (r, w) ∈ h.writers → r.Mem x → (r, w) ∈ h'.writers) ∧
      ∀ r w, (r, w) ∈ h.readers ++ k.reads.map (fun r => (r, e)) → r.Mem x →
        (r, w) ∈ h'.readers :=
    fun hx => foldl_write_frame hx
      (h := { h with readers := h.readers ++ k.reads.map fun r => (r, e) })
  have hheld : ∀ {t x}, t ∈ k.writes → t.Mem x → ∃ r, (r, e) ∈ h'.writers ∧ r.Mem x :=
    fun ht htx => foldl_write_held ht htx
  have hindex : ∀ {j : Nat} {a : Accesses}, (ks ++ [k])[j]? = some a →
      ks[j]? = some a ∨ (j = e ∧ a = k) := by
    intro j a hj
    rcases Nat.lt_or_ge j ks.length with hjl | hjl
    · rw [List.getElem?_append_left hjl] at hj
      exact .inl hj
    · rw [List.getElem?_append_right hjl, List.getElem?_singleton] at hj
      split at hj
      · rw [Option.some.injEq] at hj
        exact .inr ⟨by omega, hj.symm⟩
      · cases hj
  refine ⟨by simp [hinv.length], ?_, ?_, ?_, ?_⟩
  · rintro j i ⟨l, hl, hi⟩
    rcases Nat.lt_or_ge j deps.length with hjl | hjl
    · rw [List.getElem?_append_left hjl] at hl
      exact hinv.back j i ⟨l, hl, hi⟩
    · rw [List.getElem?_append_right hjl, List.getElem?_singleton] at hl
      split at hl
      · rw [Option.some.injEq] at hl
        subst hl
        have := hlt i hi
        omega
      · cases hl
  · intro r w hm
    rw [List.length_append, List.length_singleton]
    have hold : w = e ∨ w < ks.length := by
      rcases hm with hm | hm
      · rcases foldl_write_kernel.1 hm with rfl | ⟨r', hr'⟩
        · exact .inl rfl
        · exact .inr (hinv.kernels r' w (.inl hr'))
      · obtain ⟨r', hr'⟩ := foldl_write_kernel.2 hm
        simp only [List.mem_append, List.mem_map, Prod.mk.injEq] at hr'
        rcases hr' with hr' | ⟨-, -, -, rfl⟩
        · exact .inr (hinv.kernels r' w (.inr hr'))
        · exact .inl rfl
    omega
  · intro j a v x hj hv hvx
    by_cases hx : ∃ t ∈ k.writes, t.Mem x
    · obtain ⟨t, ht, htx⟩ := hx
      obtain ⟨r, hr, hrx⟩ := hheld ht htx
      refine ⟨r, e, hr, hrx, ?_⟩
      rcases hindex hj with hj | ⟨rfl, -⟩
      · obtain ⟨r', w, hm, hrx', hp⟩ := hinv.written j a v x hj hv hvx
        exact (hmono hp).head (hreach ht htx hrx' (.inl hm))
      · exact .refl
    · have hno : ∀ t ∈ k.writes, ¬ t.Mem x := fun t ht htx => hx ⟨t, ht, htx⟩
      rcases hindex hj with hj | ⟨-, rfl⟩
      · obtain ⟨r, w, hm, hrx, hp⟩ := hinv.written j a v x hj hv hvx
        exact ⟨r, w, (hframe hno).1 r w hm hrx, hrx, hmono hp⟩
      · exact absurd hvx (hno v hv)
  · intro j a v x hj hv hvx
    by_cases hx : ∃ t ∈ k.writes, t.Mem x
    · obtain ⟨t, ht, htx⟩ := hx
      obtain ⟨r, hr, hrx⟩ := hheld ht htx
      refine ⟨r, e, .inl hr, hrx, ?_⟩
      rcases hindex hj with hj | ⟨rfl, -⟩
      · obtain ⟨r', w, hm, hrx', hp⟩ := hinv.read j a v x hj hv hvx
        exact (hmono hp).head (hreach ht htx hrx' hm)
      · exact .refl
    · have hno : ∀ t ∈ k.writes, ¬ t.Mem x := fun t ht htx => hx ⟨t, ht, htx⟩
      rcases hindex hj with hj | ⟨rfl, rfl⟩
      · obtain ⟨r, w, hm, hrx, hp⟩ := hinv.read j a v x hj hv hvx
        rcases hm with hm | hm
        · exact ⟨r, w, .inl ((hframe hno).1 r w hm hrx), hrx, hmono hp⟩
        · exact ⟨r, w, .inr ((hframe hno).2 r w (List.mem_append_left _ hm) hrx), hrx, hmono hp⟩
      · refine ⟨v, e, .inr ((hframe hno).2 v e (List.mem_append_right _ ?_) hvx), hvx, .refl⟩
        exact List.mem_map.mpr ⟨v, hv, rfl⟩

theorem hazardInv_run (kernels : List Accesses) :
    HazardInv kernels (kernels.foldl recordKernel (⟨[], []⟩, [])).1 (hazardDeps kernels) := by
  induction kernels using List.reverseRecOn with
  | nil => exact ⟨rfl, by simp [Dep, hazardDeps], by simp, by simp, by simp⟩
  | append_singleton ks k ih =>
    simp only [hazardDeps, List.foldl_append, List.foldl_cons, List.foldl_nil] at ih ⊢
    exact ih.recordKernel k

variable {a b : Accesses}

/-- A kernel that conflicts with an earlier one reaches it through the predecessor lists. -/
theorem hazard_path {kernels : List Accesses} {i j : Nat} (hij : i < j)
    (hi : kernels[i]? = some a) (hj : kernels[j]? = some b) (hconf : Conflict a b) :
    TransGen (Dep (hazardDeps kernels)) j i := by
  -- cut the sequence at `j`: its predecessors are those of the table of the kernels before it
  obtain ⟨hjl, hjb⟩ := List.getElem?_eq_some_iff.mp hj
  have hcut : kernels = (kernels.take j ++ [b]) ++ kernels.drop (j + 1) := by
    rw [← hjb, List.append_assoc, List.singleton_append, List.getElem_cons_drop,
      List.take_append_drop]
  have hgrow : ∀ (ks : List Accesses) (st : GraphHazards × List (List Nat)) {x y : Nat},
      Dep st.2 x y → Dep (ks.foldl recordKernel st).2 x y := by
    intro ks
    induction ks with
    | nil => exact fun st _ _ h => h
    | cons k ks ih => exact fun st _ _ h => ih _ h.concat
  set pre := kernels.take j with hpre
  have hlen : pre.length = j := by rw [hpre, List.length_take, Nat.min_eq_left (by omega)]
  have hinv := hazardInv_run pre
  set h := (pre.foldl recordKernel (⟨[], []⟩, [])).1 with hh
  have hst : pre.foldl recordKernel (⟨[], []⟩, []) = (h, hazardDeps pre) := rfl
  have hlift : ∀ {x y}, Dep (recordKernel (h, hazardDeps pre) b).2 x y →
      Dep (hazardDeps kernels) x y := by
    intro x y hd
    have heq : hazardDeps kernels = ((kernels.drop (j + 1)).foldl recordKernel
        (recordKernel (h, hazardDeps pre) b)).2 := by
      conv_lhs => rw [hcut]
      rw [hazardDeps, List.foldl_append, List.foldl_append, hst]
      rfl
    rw [heq]
    exact hgrow _ _ hd
  have hi' : pre[i]? = some a := by rw [hpre, List.getElem?_take_of_lt hij]; exact hi
  -- an entry that holds the common byte is a direct predecessor of `j`
  have hstep : ∀ {w}, w ∈ h.collect b.reads b.writes → w < j → Dep (hazardDeps kernels) j w := by
    intro w hw hwj
    refine hlift ⟨(h.record j b.reads b.writes).2, ?_, mem_record_deps.mpr ⟨hw, by omega⟩⟩
    have hdl : (hazardDeps pre).length = j := by rw [hinv.length, hlen]
    rw [← hdl]
    exact List.getElem?_concat_length
  have hpath : ∀ {w}, ReflTransGen (Dep (hazardDeps pre)) w i →
      ReflTransGen (Dep (hazardDeps kernels)) w i :=
    fun hp => ReflTransGen.mono (fun _ _ hd => hlift (Dep.concat hd)) _ _ hp
  obtain ⟨x, ⟨v, hv, hvx, t, ht, htx⟩ | ⟨v, hv, hvx, t, ht, htx⟩⟩ := hconf
  · obtain ⟨r, w, hm, hrx, hp⟩ := hinv.written i a v x hi' hv hvx
    have hw := hlen ▸ hinv.kernels r w (.inl hm)
    refine TransGen.head' (hstep ?_ hw) (hpath hp)
    exact List.mem_append_left _ (List.mem_flatMap.mpr ⟨t, ht, mem_hits hm hrx htx⟩)
  · obtain ⟨r, w, hm, hrx, hp⟩ := hinv.read i a v x hi' hv hvx
    have hw := hlen ▸ hinv.kernels r w hm
    refine TransGen.head' (hstep ?_ hw) (hpath hp)
    rcases hm with hm | hm
    · exact List.mem_append_left _ (List.mem_flatMap.mpr
        ⟨t, List.mem_append_right _ ht, mem_hits hm hrx htx⟩)
    · exact List.mem_append_right _ (List.mem_flatMap.mpr ⟨t, ht, mem_hits hm hrx htx⟩)

/-- In every recorded sequence, a kernel that conflicts with an earlier one reaches it through
    the predecessor lists, and the lists only name earlier kernels. -/
theorem hazardDeps_order_conflicts (kernels : List Accesses) :
    (∀ (i j : Nat) (a b : Accesses), i < j → kernels[i]? = some a → kernels[j]? = some b →
      Conflict a b → TransGen (Dep (hazardDeps kernels)) j i) ∧
    ∀ (j : Nat) (deps : List Nat), (hazardDeps kernels)[j]? = some deps → ∀ i ∈ deps, i < j :=
  ⟨fun _ _ _ _ hij hi hj hconf => hazard_path hij hi hj hconf,
    fun j deps hj i hi => (hazardInv_run kernels).back j i ⟨deps, hj, hi⟩⟩

/-- A write of the whole buffer, a partial overwrite, and a reader of the rest: the reader
    reaches the first writer although the second one is newer. -/
theorem hazardDeps_order_conflicts_partial :
    hazardDeps [⟨[], [⟨0, 40⟩]⟩, ⟨[], [⟨10, 20⟩]⟩, ⟨[⟨15, 30⟩], []⟩, ⟨[], [⟨0, 64⟩]⟩] =
      [[], [0], [0, 1], [0, 1, 2]] ∧
    TransGen (Dep (hazardDeps
      [⟨[], [⟨0, 40⟩]⟩, ⟨[], [⟨10, 20⟩]⟩, ⟨[⟨15, 30⟩], []⟩, ⟨[], [⟨0, 64⟩]⟩])) 2 0 := by
  refine ⟨by decide, (hazardDeps_order_conflicts _).1 0 2 ⟨[], [⟨0, 40⟩]⟩ ⟨[⟨15, 30⟩], []⟩
    (by decide) rfl rfl ⟨25, .inl ⟨⟨0, 40⟩, by decide, by decide, ⟨15, 30⟩, by decide, by decide⟩⟩⟩

/-- The graph of a plan is the recorded sequence of its ops in level order. -/
theorem ExecutionPlan.buildGraph_eq {plan : ExecutionPlan} {deps : List (List Nat)}
    (h : plan.buildGraph = some deps) :
    ∃ kernels, plan.opLevels.flatten.mapM plan.opAccesses = some kernels ∧
      deps = hazardDeps kernels := by
  have hgen : ∀ (ops : List Nat) st st',
      ops.foldlM (fun st idx => do some (recordKernel st (← plan.opAccesses idx))) st = some st' →
      ∃ kernels, ops.mapM plan.opAccesses = some kernels ∧
        st' = kernels.foldl recordKernel st := by
    intro ops
    induction ops with
    | nil =>
      intro st st' h
      simp only [List.foldlM_nil, Option.pure_def, Option.some.injEq] at h
      exact ⟨[], rfl, h.symm⟩
    | cons idx ops ih =>
      intro st st' h
      simp only [List.foldlM_cons, Option.bind_eq_bind, Option.bind_eq_some_iff,
        Option.some.injEq] at h
      obtain ⟨_, ⟨a, ha, rfl⟩, hrest⟩ := h
      obtain ⟨kernels, hk, rfl⟩ := ih _ _ (by simpa using hrest)
      exact ⟨a :: kernels, by simp [List.mapM_cons, ha, hk], rfl⟩
  simp only [buildGraph, Option.bind_eq_bind, Option.bind_eq_some_iff, Option.some.injEq] at h
  obtain ⟨⟨table, _⟩, hrun, rfl⟩ := h
  obtain ⟨kernels, hk, hst⟩ := hgen _ _ _ (by simpa using hrun)
  exact ⟨kernels, hk, by rw [hazardDeps, ← hst]⟩

/-! ## Replays -/

variable {β : Type}

/-- The effect of a kernel on memory: it writes only what it says, from what it touches. -/
structure Accesses.Effect (a : Accesses) (f : (Nat → β) → Nat → β) : Prop where
  frame : ∀ m x, (¬ ∃ w ∈ a.writes, w.Mem x) → f m x = m x
  reads : ∀ m m', (∀ x, (∃ t ∈ a.reads ++ a.writes, t.Mem x) → m x = m' x) →
    ∀ x, (∃ w ∈ a.writes, w.Mem x) → f m x = f m' x

theorem Conflict.symm (h : Conflict a b) : Conflict b a := by
  obtain ⟨x, ⟨w, hw, hwx, t, ht, htx⟩ | ⟨r, hr, hrx, w, hw, hwx⟩⟩ := h
  · rcases List.mem_append.mp ht with ht | ht
    · exact ⟨x, .inr ⟨t, ht, htx, w, hw, hwx⟩⟩
    · exact ⟨x, .inl ⟨t, ht, htx, w, List.mem_append_right _ hw, hwx⟩⟩
  · exact ⟨x, .inl ⟨w, hw, hwx, r, List.mem_append_left _ hr, hrx⟩⟩

/-- Where one of two kernels writes, the other one is not seen. -/
theorem Accesses.Effect.swap_at {f g : (Nat → β) → Nat → β} (hf : a.Effect f) (hg : b.Effect g)
    (h : ¬ Conflict a b) (m : Nat → β) (hx : ∃ w ∈ a.writes, w.Mem x) : f (g m) x = g (f m) x := by
  have hunseen : ∀ y, (∃ t ∈ a.reads ++ a.writes, t.Mem y) → g m y = m y := by
    rintro y ⟨t, ht, hty⟩
    refine hg.frame m y fun ⟨w, hw, hwy⟩ => h (Conflict.symm ⟨y, .inl ⟨w, hw, hwy, t, ht, hty⟩⟩)
  obtain ⟨w, hw, hwx⟩ := hx
  rw [hf.reads (g m) m hunseen x ⟨w, hw, hwx⟩, hg.frame (f m) x]
  rintro ⟨t, ht, htx⟩
  exact h ⟨x, .inl ⟨w, hw, hwx, t, List.mem_append_right _ ht, htx⟩⟩

theorem Accesses.Effect.commute {f g : (Nat → β) → Nat → β} (hf : a.Effect f) (hg : b.Effect g)
    (h : ¬ Conflict a b) (m : Nat → β) : f (g m) = g (f m) := by
  funext x
  by_cases ha : ∃ w ∈ a.writes, w.Mem x
  · exact hf.swap_at hg h m ha
  by_cases hb : ∃ w ∈ b.writes, w.Mem x
  · exact (hg.swap_at hf (fun hc => h hc.symm) m hb).symm
  · rw [hf.frame _ x ha, hg.frame _ x hb, hg.frame _ x hb, hf.frame _ x ha]

/-- A captured graph replays its plan: launched in any order that its edges allow, the kernels
leave memory as they do one after the other, in level order. -/
theorem ExecutionPlan.buildGraph_replays {plan : ExecutionPlan} {deps : List (List Nat)}
    {kernels : List Accesses} (h : plan.buildGraph = some deps)
    (hk : plan.opLevels.flatten.mapM plan.opAccesses = some kernels)
    {kernel : Nat → (Nat → β) → Nat → β}
    (hkernel : ∀ i (a : Accesses), kernels[i]? = some a → a.Effect (kernel i))
    {order : List Nat} (horder : order.Perm (List.range kernels.length))
    (hedges : ∀ j i, Dep deps j i → order.idxOf i < order.idxOf j) (m : Nat → β) :
    order.foldl (fun m i => kernel i m) m =
      (List.range kernels.length).foldl (fun m i => kernel i m) m := by
  obtain ⟨ks, hk', rfl⟩ := plan.buildGraph_eq h
  obtain rfl : kernels = ks := Option.some.inj (hk.symm.trans hk')
  have hpath : ∀ {i j}, TransGen (Dep (hazardDeps kernels)) j i → order.idxOf i < order.idxOf j := by
    intro i j hp
    induction hp with
    | single hd => exact hedges _ _ hd
    | tail _ hd ih => exact (hedges _ _ hd).trans ih
  have hnodup : order.Nodup := horder.nodup_iff.mpr List.nodup_range
  have hlt : ∀ i ∈ order, i < kernels.length := fun i hi => List.mem_range.mp (horder.mem_iff.mp hi)
  refine foldl_eq_of_perm (r := (· < ·)) (fun _ _ => Nat.lt_asymm) horder
    (List.pairwise_lt_range.imp .inr) (List.pairwise_iff_getElem.mpr fun i j hi hj hij => ?_) m
  by_cases hle : order[i] < order[j]
  · exact .inr hle
  -- a conflict with a kernel of a lower index would have put that one first
  obtain ⟨a, ha⟩ : ∃ a, kernels[order[i]]? = some a :=
    ⟨_, List.getElem?_eq_getElem (hlt _ (List.getElem_mem hi))⟩
  obtain ⟨b, hb⟩ : ∃ b, kernels[order[j]]? = some b :=
    ⟨_, List.getElem?_eq_getElem (hlt _ (List.getElem_mem hj))⟩
  refine .inl fun s => (hkernel _ b hb).commute (hkernel _ a ha) (fun hconf => ?_) s
  have hne : order[i] ≠ order[j] := fun heq => hij.ne (hnodup.getElem_inj_iff.mp heq)
  have hbefore := hpath (hazard_path (by omega) hb ha hconf)
  rw [hnodup.idxOf_getElem, hnodup.idxOf_getElem] at hbefore
  omega

/-- Two kernels that stamp a buffer each, the later one launched first. -/
theorem ExecutionPlan.buildGraph_replays_swapped :
    let stamp i (m : Nat → Nat) x := if 8 * i ≤ x ∧ x < 8 * i + 4 then i else m x
    [1, 0].foldl (fun m i => stamp i m) (fun _ => 9) =
      [0, 1].foldl (fun m i => stamp i m) (fun _ => 9) := by
  refine @buildGraph_replays Nat ⟨[.compiledProgram ⟨[0], [0]⟩, .compiledProgram ⟨[1], [0]⟩],
    [[0, 1]], [⟨some 0, 4⟩, ⟨some 8, 4⟩]⟩ [[], []] [⟨[], [⟨0, 4⟩]⟩, ⟨[], [⟨8, 12⟩]⟩] rfl rfl _
    (fun i a ha => ?_) _ (by decide) ?_ _
  · rcases i with _ | _ | i <;> simp at ha <;> subst ha <;> constructor <;> simp [Range.Mem]
    all_goals grind
  · rintro j i ⟨ds, hds, hi⟩
    obtain rfl : ds = [] := by simpa using List.mem_of_getElem? hds
    cases hi

end Svod.Runtime
