/-
  Svod.Device.SdmaRingSound

  The three computations of the SDMA padding agree as long as the write index
  stays a `u64`: then every push moves it by the padding and the chunk, and the
  fold that the checks evaluate is where the pushes end.  What a wait reserves
  fits an empty ring only if the padding and the blob together do.
-/

import Svod.Device.HwQueueSound
import Svod.Device.SdmaRing

namespace Svod.Device.SdmaRing

open Svod.Device.HwQueue (sdmaAdvance units extent)

variable {chunks : List (List UInt8)}

/-! ## Counters -/

/-- A wrapping difference recovers what was added. -/
theorem subU64_wrapU64_add {w p : ℕ} (hw : w < 2 ^ 64) (hp : p < 2 ^ 64) :
    subU64 (wrapU64 (w + p)) w = p := by
  unfold subU64 wrapU64
  omega

namespace QueueInner

variable (g : QueueInner)

theorem pad_le (bytes : ℕ) : g.pad bytes ≤ g.ringSize := by
  unfold pad
  dsimp only
  split <;> omega

theorem pushSdmaBytes_writeIdx (chunk : List UInt8) : (g.pushSdmaBytes chunk).writeIdx =
    wrapU64 (wrapU64 (g.writeIdx + g.pad chunk.length) + chunk.length) := rfl

theorem sdmaAdvance_eq_add_pad (bytes : ℕ) :
    sdmaAdvance g.ringSize g.writeIdx bytes = g.writeIdx + g.pad bytes + bytes := by
  unfold sdmaAdvance pad
  dsimp only
  split <;> rfl

/-- Bytes written by the pushes, the padding included. -/
def written (g : QueueInner) : List (List UInt8) → ℕ
  | [] => 0
  | chunk :: chunks => g.pad chunk.length + chunk.length + written (g.pushSdmaBytes chunk) chunks

/-- Where the pushes leave a write index that does not wrap. -/
def endIdx (chunks : List (List UInt8)) : ℕ :=
  (chunks.map List.length).foldl (sdmaAdvance g.ringSize) g.writeIdx

/-- The pushes advance the write index by `n`. -/
structure Advances (chunks : List (List UInt8)) (n : ℕ) : Prop where
  written_eq : g.written chunks = n
  writeIdx_eq : (g.pushAll chunks).writeIdx = g.writeIdx + n

/-- No chunk straddles the ring's end. -/
def InsideRing (g : QueueInner) : List (List UInt8) → Prop
  | [] => True
  | chunk :: chunks =>
    g.start chunk.length + chunk.length ≤ g.ringSize ∧ InsideRing (g.pushSdmaBytes chunk) chunks

/-- The device has read everything, and `published` bytes fit. -/
def FitsDrained (published : ℕ) : Prop := g.sdmaShortfall g.writeIdx published = none

/-! ## What the pushes do -/

theorem writeIdx_le_foldl (ringSize w : ℕ) (lengths : List ℕ) :
    w ≤ lengths.foldl (sdmaAdvance ringSize) w := by
  induction lengths generalizing w with
  | nil => exact le_rfl
  | cons n lengths ih =>
    refine le_trans ?_ (ih _)
    unfold sdmaAdvance
    dsimp only
    split <;> omega

/-- One push of a counter that does not wrap. -/
theorem pushSdmaBytes_of_lt (chunk : List UInt8)
    (h : g.writeIdx + g.pad chunk.length + chunk.length < 2 ^ 64) :
    (g.pushSdmaBytes chunk).writeIdx = g.writeIdx + g.pad chunk.length + chunk.length := by
  rw [pushSdmaBytes_writeIdx]
  unfold wrapU64
  rw [Nat.mod_eq_of_lt (a := g.writeIdx + g.pad chunk.length) (by omega), Nat.mod_eq_of_lt h]

/-- As long as nothing wraps, the first push moves the counter on, and the others go on from there. -/
theorem push_of_endIdx_lt (chunk : List UInt8) (h : g.endIdx (chunk :: chunks) < 2 ^ 64) :
    g.writeIdx + g.pad chunk.length + chunk.length < 2 ^ 64 ∧
      (g.pushSdmaBytes chunk).endIdx chunks = g.endIdx (chunk :: chunks) := by
  have hend : g.endIdx (chunk :: chunks) = (chunks.map List.length).foldl
      (sdmaAdvance g.ringSize) (g.writeIdx + g.pad chunk.length + chunk.length) := by
    rw [← sdmaAdvance_eq_add_pad]
    rfl
  have hle := writeIdx_le_foldl g.ringSize (g.writeIdx + g.pad chunk.length + chunk.length)
    (chunks.map List.length)
  refine ⟨by omega, ?_⟩
  rw [hend, ← g.pushSdmaBytes_of_lt chunk (by omega)]
  rfl

/-- As long as nothing wraps, the pushes end where the fold does. -/
theorem written_of_endIdx_lt (h : g.endIdx chunks < 2 ^ 64) :
    (g.pushAll chunks).writeIdx = g.endIdx chunks ∧
      g.writeIdx + g.written chunks = g.endIdx chunks := by
  induction chunks generalizing g with
  | nil => exact ⟨rfl, rfl⟩
  | cons chunk chunks ih =>
    obtain ⟨hlt, hrest⟩ := g.push_of_endIdx_lt chunk h
    have hpush := g.pushSdmaBytes_of_lt chunk hlt
    obtain ⟨hidx, hwritten⟩ := ih (g.pushSdmaBytes chunk) (by omega)
    refine ⟨hidx.trans hrest, ?_⟩
    rw [written, ← hrest, ← hwritten, hpush]
    omega

/-- The pushes write what the counter says only if it does not wrap. -/
theorem endIdx_lt_of_written (h : g.writeIdx + g.written chunks < 2 ^ 64) :
    g.endIdx chunks < 2 ^ 64 := by
  induction chunks generalizing g with
  | nil => exact h
  | cons chunk chunks ih =>
    rw [written] at h
    have hpush := g.pushSdmaBytes_of_lt chunk (by omega)
    have hrest := ih (g.pushSdmaBytes chunk) (by omega)
    have hend : g.endIdx (chunk :: chunks) = (g.pushSdmaBytes chunk).endIdx chunks := by
      rw [endIdx, endIdx, hpush, ← sdmaAdvance_eq_add_pad]
      rfl
    rwa [hend]

theorem Advances.endIdx_lt {g : QueueInner} {chunks : List (List UInt8)} {n : ℕ}
    (h : g.Advances chunks n) : g.endIdx chunks < 2 ^ 64 := by
  refine g.endIdx_lt_of_written ?_
  rw [h.written_eq, ← h.writeIdx_eq]
  exact (g.pushAll chunks).writeIdx_lt

theorem advances_of_endIdx_lt (h : g.endIdx chunks < 2 ^ 64) :
    g.Advances chunks (g.endIdx chunks - g.writeIdx) := by
  obtain ⟨hidx, hwritten⟩ := g.written_of_endIdx_lt h
  exact ⟨by omega, by omega⟩

/-- A chunk shorter than the ring does not straddle its end. -/
theorem start_add_le {bytes : ℕ} (hbytes : bytes < g.ringSize)
    (hidx : g.writeIdx + g.pad bytes < 2 ^ 64) : g.start bytes + bytes ≤ g.ringSize := by
  have hpos := Nat.mod_lt g.writeIdx g.ringSize_pos
  have hidx' : (g.padded bytes).writeIdx = g.writeIdx + g.pad bytes := Nat.mod_eq_of_lt hidx
  rw [start, hidx']
  change (g.writeIdx + g.pad bytes) % g.ringSize + bytes ≤ g.ringSize
  by_cases hwrap : g.ringSize < g.writeIdx % g.ringSize + bytes
  · have hpad : g.pad bytes = g.ringSize - g.writeIdx % g.ringSize := if_pos hwrap
    have hzero : (g.writeIdx + (g.ringSize - g.writeIdx % g.ringSize)) % g.ringSize = 0 := by
      rw [← Nat.mod_add_mod, Nat.add_sub_of_le hpos.le, Nat.mod_self]
    rw [hpad, hzero]
    omega
  · have hpad : g.pad bytes = 0 := if_neg hwrap
    rw [hpad, Nat.add_zero]
    omega

theorem insideRing_of_endIdx_lt (h : g.endIdx chunks < 2 ^ 64)
    (hlen : ∀ chunk ∈ chunks, chunk.length < g.ringSize) : g.InsideRing chunks := by
  induction chunks generalizing g with
  | nil => trivial
  | cons chunk chunks ih =>
    obtain ⟨hlt, hrest⟩ := g.push_of_endIdx_lt chunk h
    exact ⟨g.start_add_le (hlen chunk (by simp)) (by omega), ih _ (by omega) fun c hc =>
      hlen c (by simp [hc])⟩

theorem fitsDrained_iff {published : ℕ} (h : published < 2 ^ 64) :
    g.FitsDrained published ↔ published ≤ g.ringSize := by
  unfold FitsDrained sdmaShortfall
  dsimp only
  rw [subU64_wrapU64_add g.writeIdx_lt h]
  split <;> simp <;> omega

/-! ## What the checks accept -/

/-- The padding and the blob after it fit an empty ring. -/
def PaddingFits (bytes : ℕ) : Prop :=
  g.writeIdx % g.ringSize + bytes ≤ g.ringSize ∨ bytes ≤ g.writeIdx % g.ringSize

/-- What a wait for `reserved` bytes promises for the chunks pushed after it. -/
structure Covers (reserved : ℕ) (chunks : List (List UInt8)) : Prop where
  advances : ∃ n ≤ reserved, g.Advances chunks n
  inside : g.InsideRing chunks
  fits : g.FitsDrained reserved

theorem sdmaReserve_eq_ok {bytes reserved : ℕ} (h : g.sdmaReserve bytes = .ok reserved) :
    bytes < g.ringSize ∧ reserved = bytes + g.pad bytes := by
  unfold sdmaReserve at h
  split at h
  · cases h
  · next hlt => exact ⟨not_le.mp hlt, (Except.ok.inj h).symm⟩

theorem length_lt_of_units {n : ℕ} (h : units chunks ≤ n) {chunk : List UInt8}
    (hmem : chunk ∈ chunks) : chunk.length ≤ n :=
  le_trans (List.single_le_sum (by simp) _ (List.mem_map_of_mem hmem)) h

/-- Chunks of no more bytes than asked for end within the reservation. -/
theorem endIdx_le_add_reserved {bytes reserved : ℕ} (h : g.sdmaReserve bytes = .ok reserved)
    (hunits : units chunks ≤ bytes) : g.endIdx chunks - g.writeIdx ≤ reserved := by
  obtain ⟨hlt, rfl⟩ := g.sdmaReserve_eq_ok h
  have hextent := HwQueue.extent_sdma_le (w := g.writeIdx) g.ringSize_pos hlt chunks hunits
  rwa [← HwQueue.extent_eq_linkedSdmaPublishedBytes] at hextent

theorem reserved_le_iff {bytes : ℕ} :
    bytes + g.pad bytes ≤ g.ringSize ↔ bytes ≤ g.ringSize ∧ g.PaddingFits bytes := by
  have hpos := Nat.mod_lt g.writeIdx g.ringSize_pos
  unfold pad PaddingFits
  dsimp only
  split <;> omega

/-- A wait covers the chunks pushed after it exactly when the write index does not wrap and the
    padding fits beside them. -/
theorem covers_iff {bytes reserved : ℕ} (h : g.sdmaReserve bytes = .ok reserved)
    (hunits : units chunks ≤ bytes) :
    g.Covers reserved chunks ↔ g.endIdx chunks < 2 ^ 64 ∧ g.PaddingFits bytes := by
  obtain ⟨hlt, hreserved⟩ := g.sdmaReserve_eq_ok h
  have hpad := g.pad_le bytes
  have hsize := g.ringSize_lt
  have hfits : g.FitsDrained reserved ↔ g.PaddingFits bytes := by
    rw [g.fitsDrained_iff (by omega), hreserved, g.reserved_le_iff]
    exact and_iff_right hlt.le
  constructor
  · intro hcovers
    obtain ⟨n, -, hadvances⟩ := hcovers.advances
    exact ⟨hadvances.endIdx_lt, hfits.mp hcovers.fits⟩
  · rintro ⟨hend, hpadding⟩
    exact ⟨⟨_, g.endIdx_le_add_reserved h hunits, g.advances_of_endIdx_lt hend⟩,
      g.insideRing_of_endIdx_lt hend fun chunk hmem =>
        lt_of_le_of_lt (length_lt_of_units hunits hmem) hlt,
      hfits.mpr hpadding⟩

end QueueInner

theorem linkedStep_eq_ok {ringSize next bytes n : ℕ} (h : linkedStep ringSize next bytes = .ok n) :
    bytes < ringSize ∧
      (sdmaAdvance ringSize next bytes < 2 ^ 64 → n = sdmaAdvance ringSize next bytes) := by
  unfold linkedStep at h
  split at h
  · cases h
  · next hvalid =>
    refine ⟨by omega, fun hlt => ?_⟩
    unfold sdmaAdvance at hlt ⊢
    dsimp only at h hlt ⊢
    by_cases hwrap : ringSize < next % ringSize + bytes
    · rw [if_pos hwrap] at hlt ⊢
      have hmod : wrapU64 (next + (ringSize - next % ringSize)) =
          next + (ringSize - next % ringSize) := Nat.mod_eq_of_lt (by omega)
      rw [if_pos hwrap, hmod, if_pos hlt] at h
      exact (Except.ok.inj h).symm
    · rw [if_neg hwrap] at hlt ⊢
      rw [if_neg hwrap, if_pos hlt] at h
      exact (Except.ok.inj h).symm

/-- The fold of `linked_sdma_published_bytes` follows the pushes. -/
theorem foldlM_linkedStep {ringSize w n : ℕ} {lengths : List ℕ}
    (h : lengths.foldlM (linkedStep ringSize) w = .ok n) :
    (∀ bytes ∈ lengths, bytes < ringSize) ∧
      (lengths.foldl (sdmaAdvance ringSize) w < 2 ^ 64 →
        n = lengths.foldl (sdmaAdvance ringSize) w) := by
  induction lengths generalizing w with
  | nil => exact ⟨by simp, fun _ => (Except.ok.inj h).symm⟩
  | cons bytes lengths ih =>
    rw [List.foldlM_cons] at h
    cases hstep : linkedStep ringSize w bytes with
    | error e =>
      rw [hstep] at h
      cases h
    | ok next =>
      rw [hstep] at h
      obtain ⟨hbytes, hnext⟩ := linkedStep_eq_ok hstep
      obtain ⟨hrest, hfold⟩ := ih h
      refine ⟨by simpa [hbytes] using hrest, fun hlt => ?_⟩
      rw [List.foldl_cons] at hlt ⊢
      have hle := QueueInner.writeIdx_le_foldl ringSize (sdmaAdvance ringSize w bytes) lengths
      rw [hnext (by omega)] at hfold
      exact hfold hlt

/-- The amount computed for a list of streams is exact unless the write index wraps. -/
theorem linkedSdmaPublishedBytes_iff (g : QueueInner) {streams : List (List UInt8)} {p : ℕ}
    (h : linkedSdmaPublishedBytes g.writeIdx g.ringSize (streams.map List.length) = .ok p) :
    g.Advances streams p ∧ g.InsideRing streams ∧ g.FitsDrained p ↔
      g.endIdx streams < 2 ^ 64 := by
  unfold linkedSdmaPublishedBytes at h
  cases hfold : (streams.map List.length).foldlM (linkedStep g.ringSize) g.writeIdx with
  | error e =>
    rw [hfold] at h
    cases h
  | ok next =>
    obtain ⟨hlen, hnext⟩ := foldlM_linkedStep hfold
    rw [hfold] at h
    change (if g.ringSize ≤ next - g.writeIdx then _ else _) = _ at h
    split at h
    · cases h
    next hlt =>
    have hp := Except.ok.inj h
    have hsize := g.ringSize_lt
    refine ⟨fun hexact => hexact.1.endIdx_lt, fun hend => ⟨?_, ?_, ?_⟩⟩
    · rw [← hp, hnext hend]
      exact g.advances_of_endIdx_lt hend
    · exact g.insideRing_of_endIdx_lt hend fun chunk hmem => hlen _ (List.mem_map_of_mem hmem)
    · exact (g.fitsDrained_iff (by omega)).mpr (by omega)

/-! ## Packets -/

theorem length_sliceBytes (dwords : List UInt32) :
    (sliceBytes dwords).length = submitHcqBytes dwords := by
  unfold sliceBytes submitHcqBytes
  induction dwords with
  | nil => rfl
  | cons d dwords ih =>
    rw [List.flatMap_cons, List.length_append, ih, List.length_cons]
    simp only [dwordBytes, List.length_cons, List.length_nil]
    omega

/-- The copy packets of the loop, seven dwords for each chunk. -/
theorem units_copyChunks (src dst : UInt64) (size off : ℕ) :
    units ((copyChunks src dst size off).map sliceBytes) =
      (size - off + sdmaMaxCopyBytes - 1) / sdmaMaxCopyBytes * 28 := by
  induction off using copyChunks.induct size with
  | case1 off hlt n ih =>
    have hlen : ∀ a b : UInt64, ∀ k : ℕ, (sliceBytes (copyLinear a b k)).length = 28 :=
      fun a b k => length_sliceBytes _
    rw [copyChunks, dif_pos hlt]
    simp only [List.map_cons, HwQueue.units_cons, hlen]
    rw [show min (size - off) sdmaMaxCopyBytes = n from rfl, ih]
    by_cases hbig : sdmaMaxCopyBytes ≤ size - off
    · have hn : n = sdmaMaxCopyBytes := Nat.min_eq_right hbig
      have hsplit : size - off + sdmaMaxCopyBytes - 1 =
          size - (off + n) + sdmaMaxCopyBytes - 1 + sdmaMaxCopyBytes := by omega
      rw [hsplit, Nat.add_div_right _ (by decide)]
      omega
    · have hn : n = size - off := Nat.min_eq_left (by omega)
      have hmax : sdmaMaxCopyBytes = 4194304 := rfl
      have hlast : (size - (off + n) + sdmaMaxCopyBytes - 1) / sdmaMaxCopyBytes = 0 :=
        Nat.div_eq_of_lt (by omega)
      have hone : (size - off + sdmaMaxCopyBytes - 1) / sdmaMaxCopyBytes = 1 :=
        Nat.div_eq_of_lt_le (by omega) (by omega)
      rw [hlast, hone]
  | case2 off hge =>
    rw [copyChunks, dif_neg hge]
    have hzero : size - off = 0 := by omega
    rw [hzero]
    rfl

/-- A fenced copy pushes no more than it asks headroom for. -/
theorem units_copyFencedPackets (src dst : UInt64) (size : ℕ) (valueAddr : UInt64)
    (target targetMajor : UInt32) (mailbox : Option Mailbox) :
    units ((copyFencedPackets src dst size valueAddr target targetMajor mailbox).map sliceBytes) ≤
      copyFencedBytes size := by
  have hchunks := units_copyChunks src dst size 0
  rw [Nat.sub_zero] at hchunks
  have happend : ∀ a b : List (List UInt8), units (a ++ b) = units a + units b := by
    intro a b
    simp [units]
  have hfence : ∀ (a : UInt64) (v : UInt32), (sliceBytes (fence a v targetMajor)).length = 16 :=
    fun a v => length_sliceBytes _
  have htrap : ∀ e : UInt32, (sliceBytes (trap e)).length = 8 := fun e => length_sliceBytes _
  unfold copyFencedPackets copyFencedBytes
  rw [List.map_append, happend, hchunks, List.map_cons, HwQueue.units_cons, hfence]
  cases mailbox with
  | none =>
    have hnil : units ([] : List (List UInt8)) = 0 := rfl
    simp only [List.map_nil, hnil]
    omega
  | some m =>
    have hnil : units ([] : List (List UInt8)) = 0 := rfl
    simp only [List.map_cons, List.map_nil, HwQueue.units_cons, hfence, htrap, hnil]
    omega

/-! ## The accounting -/

/-- The amounts computed before the pushes are those of the pushes, and they fit a drained ring,
    exactly when the write index stays below `2 ^ 64` and, for a single wait, the padding fits
    beside the blob. -/
theorem sdmaAccounting_iff (g : QueueInner) :
    (∀ streams p,
      linkedSdmaPublishedBytes g.writeIdx g.ringSize (streams.map List.length) = .ok p →
      (g.Advances streams p ∧ g.InsideRing streams ∧ g.FitsDrained p ↔
        g.endIdx streams < 2 ^ 64)) ∧
    (∀ dwords reserved, g.sdmaReserve (submitHcqBytes dwords) = .ok reserved →
      (g.Covers reserved [sliceBytes dwords] ↔
        g.endIdx [sliceBytes dwords] < 2 ^ 64 ∧ g.PaddingFits (submitHcqBytes dwords))) ∧
    ∀ src dst size valueAddr target targetMajor mailbox reserved,
      g.sdmaReserve (copyFencedBytes size) = .ok reserved →
      (g.Covers reserved ((copyFencedPackets src dst size valueAddr target targetMajor
          mailbox).map sliceBytes) ↔
        g.endIdx ((copyFencedPackets src dst size valueAddr target targetMajor mailbox).map
            sliceBytes) < 2 ^ 64 ∧
          g.PaddingFits (copyFencedBytes size)) := by
  refine ⟨fun streams p h => linkedSdmaPublishedBytes_iff g h, fun dwords reserved h => ?_,
    fun src dst size valueAddr target targetMajor mailbox reserved h => ?_⟩
  · refine g.covers_iff h ?_
    rw [HwQueue.units_cons, length_sliceBytes]
    exact le_rfl
  · exact g.covers_iff h (units_copyFencedPackets src dst size valueAddr target targetMajor mailbox)

/-- A ring of the copy queue's size, drained at `writeIdx`. -/
def copyRing (writeIdx : ℕ) (h : writeIdx < 2 ^ 64) : QueueInner where
  ringSize := 16 * 1024 * 1024
  ring := fun _ => 0
  writeIdx := writeIdx
  ringSize_pos := by decide
  four_dvd_ringSize := by decide
  ringSize_lt := by decide
  writeIdx_lt := h

/-- Two streams that meet the ring's end, and a trap after them. -/
theorem sdmaAccounting_wrapped :
    ((copyRing 16777208 (by decide)).Advances [sliceBytes [0, 0, 0, 0], sliceBytes [0, 0]] 32 ∧
      (copyRing 16777208 (by decide)).InsideRing [sliceBytes [0, 0, 0, 0], sliceBytes [0, 0]] ∧
      (copyRing 16777208 (by decide)).FitsDrained 32) ∧
    (copyRing 16777208 (by decide)).Covers 24 [sliceBytes (fence 0 1 9)] ∧
    (copyRing 16777208 (by decide)).Covers 76 ((copyFencedPackets 0 0 1 0 1 9 none).map
      sliceBytes) := by
  have hall := sdmaAccounting_iff (copyRing 16777208 (by decide))
  have hchunks : copyChunks 0 0 1 0 = [copyLinear 0 0 1] := by
    simp [copyChunks, sdmaMaxCopyBytes]
  have hend : (copyRing 16777208 (by decide)).endIdx
      ((copyFencedPackets 0 0 1 0 1 9 none).map sliceBytes) < 2 ^ 64 := by
    unfold copyFencedPackets
    rw [hchunks]
    decide
  exact ⟨(hall.1 _ 32 (by decide)).mpr (by decide),
    (hall.2.1 (fence 0 1 9) 24 (by decide)).mpr ⟨by decide, .inr (by decide)⟩,
    (hall.2.2 0 0 1 0 1 9 none 76 (by decide)).mpr ⟨hend, .inr (by decide)⟩⟩

/-- Twelve megabytes at eight: the padding takes the other half of the drained ring. -/
theorem sdmaReserve_exceeds_drained :
    ¬ ∀ (g : QueueInner) (bytes reserved : ℕ), 4 ∣ bytes → g.sdmaReserve bytes = .ok reserved →
      g.FitsDrained reserved := by
  intro h
  have hfits := h (copyRing (8 * 1024 * 1024) (by decide)) (12 * 1024 * 1024) (20 * 1024 * 1024)
    (by decide) (by decide)
  revert hfits
  unfold QueueInner.FitsDrained
  decide

end Svod.Device.SdmaRing
