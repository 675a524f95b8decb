/-
  Svod.Arch.CtcBeamSound

  The beam decoder sums alignments: as long as nothing is pruned, the masses of a
  prefix after `t` frames are the sums over the alignments of `t` frames that
  collapse to it.

  One frame advances the points of the beam (`extendBeam_spec`), and the
  alignments advance in the same way (`masses_succ`), so the keyed sums of the
  beam are those of the alignments.
-/

import Svod.Arch.CtcBeamFrame

namespace Svod.Arch.Ctc

open KeyedSums SuffixTree

namespace BeamDecoder

variable {S : Type} [CommSemiring S] (d : BeamDecoder S) (ops : BeamFloatOps S)
  (orders : UnstableOrders S) (logProbs : List S)

/-! ## What is held and what is reported -/

/-- The score of a label in a frame. -/
def score (t c : ℕ) : S := logProbs.getD (t * d.totalVocab + c) 0

/-- The beam after `t` frames holds the sums over the alignments of `t` frames. -/
structure Summed (t : ℕ) (b : BeamScratch S) : Prop where
  placed : d.Placed (b.tree, b.beam)
  nodup : (b.beam.map SearchPoint.node).Nodup
  ne_nil : b.beam ≠ []
  mass : ∀ q, massAt b.tree q b.beam =
    (blankMass d.blankId d.totalVocab (d.score logProbs) t q,
      nonblankMass d.blankId d.totalVocab (d.score logProbs) t q)

/-- The beam after `t` frames against the alignments of `t` frames: a point holds the sums of its
    prefix, a prefix has one node and one point, and a prefix without a point has no mass. -/
structure Holds (d : BeamDecoder S) (logProbs : List S) (t : ℕ) (b : BeamScratch S) : Prop where
  held : ∀ sp ∈ b.beam, ∃ q, b.tree.prefixOf sp.node = some q ∧
    sp.pB = blankMass d.blankId d.totalVocab (d.score logProbs) t q ∧
    sp.pNb = nonblankMass d.blankId d.totalVocab (d.score logProbs) t q
  one_node : ∀ m n q, -1 ≤ m → -1 ≤ n → b.tree.prefixOf m = some q → b.tree.prefixOf n = some q →
    m = n
  one_point : (b.beam.map SearchPoint.node).Nodup
  unheld : ∀ q, (∀ sp ∈ b.beam, b.tree.prefixOf sp.node ≠ some q) →
    blankMass d.blankId d.totalVocab (d.score logProbs) t q = 0 ∧
      nonblankMass d.blankId d.totalVocab (d.score logProbs) t q = 0

/-- The text of a label sequence. -/
def text (d : BeamDecoder S) (q : List ℕ) : String := String.join (q.map d.tokenText)

variable {d ops orders logProbs} {t n : ℕ} {b : BeamScratch S}

theorem Summed.spells (h : d.Summed logProbs t b) {sp : SearchPoint S} (hsp : sp ∈ b.beam) :
    Spells b.tree.nodes sp.node (b.tree.labels sp.node) :=
  h.placed.trie.spells_labels (h.placed.valid sp hsp)

theorem Summed.one_node (h : d.Summed logProbs t b) {m k : ℤ} {q : List ℕ} (hm : b.tree.Valid m)
    (hk : b.tree.Valid k) (hmq : b.tree.labels m = q) (hkq : b.tree.labels k = q) : m = k := by
  have hspells := h.placed.trie.spells_labels hm
  rw [hmq, ← hkq] at hspells
  exact h.placed.trie.spells_injective hspells (h.placed.trie.spells_labels hk)

theorem Summed.holds (h : d.Summed logProbs t b) : d.Holds logProbs t b where
  held sp hsp := by
    refine ⟨_, (h.spells hsp).prefixOf_eq, ?_⟩
    -- no other point has the prefix
    have hsame : massAt b.tree (b.tree.labels sp.node) b.beam = sp.masses := by
      rw [← sumAt_key_of_nodup SearchPoint.node SearchPoint.masses h.nodup hsp]
      exact sumAt_congr _ _ fun sp' hsp' => ⟨fun heq => h.one_node (h.placed.valid sp' hsp')
        (h.placed.valid sp hsp) heq rfl, fun heq => by rw [heq]⟩
    rw [h.mass] at hsame
    exact ⟨(congrArg Prod.fst hsame).symm, (congrArg Prod.snd hsame).symm⟩
  one_node m k q hm hk hmq hkq := by
    refine h.one_node (q := q) (valid_of_prefixOf hm hmq) (valid_of_prefixOf hk hkq) ?_ ?_
    · rw [labels, hmq, Option.getD_some]
    · rw [labels, hkq, Option.getD_some]
  one_point := h.nodup
  unheld q hnone := by
    have hzero : massAt b.tree q b.beam = 0 := sumAt_eq_zero _ _ _ fun sp hsp heq =>
      hnone sp hsp (by rw [(h.spells hsp).prefixOf_eq, heq])
    rw [h.mass] at hzero
    exact ⟨congrArg Prod.fst hzero, congrArg Prod.snd hzero⟩

omit [CommSemiring S] in
/-- What is reported for a node is its prefix, with a frame for each token. -/
theorem collect_spec {tree : SuffixTree} (htree : Trie tree)
    (hsize : tree.alphabetSize = d.vocabulary.length) {node : ℤ} {q : List ℕ}
    (hq : Spells tree.nodes node q) :
    d.collectText tree node = some (d.text q) ∧
      ∃ frames, d.collectTextAndFrames tree node = some (d.text q, frames) ∧
        frames.length = q.length := by
  obtain ⟨w, hw, hlabels⟩ := hq.iterFrom_eq
  -- every label of the tree is a token
  have hkept : (w.reverse.filter fun x => x.1 < d.vocabulary.length) = w.reverse := by
    refine List.filter_eq_self.mpr fun x hx => decide_eq_true ?_
    rw [← hsize]
    exact htree.label_lt hq x.1 (hlabels ▸ List.mem_map_of_mem hx)
  have htext : (w.reverse.map fun x => d.tokenText x.1) = q.map d.tokenText := by
    rw [← hlabels, List.map_map]
    rfl
  refine ⟨by rw [collectText, hw, Option.map_some, hkept, htext, text], w.reverse.map Prod.snd,
    by simp only [collectTextAndFrames, hw, Option.map_some, hkept, htext, text], ?_⟩
  rw [← hlabels, List.length_map, List.length_map]

theorem Summed.collect (h : d.Summed logProbs t b) :
    ∃ best rest q, b.beam = best :: rest ∧ b.tree.prefixOf best.node = some q ∧
      (∀ c ∈ q, c < d.vocabulary.length) ∧ d.collectText b.tree best.node = some (d.text q) ∧
      ∃ frames, d.collectTextAndFrames b.tree best.node = some (d.text q, frames) ∧
        frames.length = q.length := by
  obtain ⟨best, rest, hbeam⟩ := List.exists_cons_of_ne_nil h.ne_nil
  have hspells := h.spells (hbeam ▸ List.mem_cons_self)
  refine ⟨best, rest, _, hbeam, hspells.prefixOf_eq, fun c hc => ?_,
    collect_spec h.placed.trie h.placed.alphabetSize_eq hspells⟩
  have hlt := h.placed.trie.label_lt hspells c hc
  rwa [show b.tree.alphabetSize = d.vocabulary.length from h.placed.alphabetSize_eq] at hlt

omit [CommSemiring S] in
/-- The root of any tree is the empty prefix. -/
theorem collect_root (d : BeamDecoder S) (before : SuffixTree) :
    d.collectText before rootNode = some "" ∧
      d.collectTextAndFrames before rootNode = some ("", []) := by
  have hroot : before.iterFrom rootNode = some [] := by
    simp [iterFrom, walk, rootNode]
  exact ⟨by simp [collectText, hroot], by simp [collectTextAndFrames, hroot]⟩

/-! ## A run in which nothing is pruned -/

theorem sorted_perm (beam : List (SearchPoint S)) : (sorted ops orders beam).Perm beam :=
  orders.sortBy_perm _ _

omit [CommSemiring S] in
theorem frameAt_length {frame : List S} (h : d.frameAt logProbs t = some frame) :
    frame.length = d.totalVocab := by
  rw [frameAt, slice] at h
  split at h
  · cases h
    rw [List.length_take, List.length_drop]
    omega
  · cases h

theorem frameAt_eq (hslab : (t + 1) * d.totalVocab ≤ logProbs.length) :
    ∃ frame, d.frameAt logProbs t = some frame ∧ frame.length = d.totalVocab ∧
      (∀ c < d.totalVocab, frame.getD c 0 = d.score logProbs t c) ∧ frame ⊆ logProbs := by
  rw [Nat.succ_mul] at hslab
  refine ⟨_, by rw [frameAt, slice, if_pos hslab], ?_, ?_, ?_⟩
  · rw [List.length_take, List.length_drop]
    omega
  · intro c hc
    rw [List.getD_eq_getElem?_getD, List.getElem?_take_of_lt hc, List.getElem?_drop, score,
      List.getD_eq_getElem?_getD]
  · exact fun v hv => List.mem_of_mem_drop (List.mem_of_mem_take hv)

theorem start_summed : d.Summed logProbs 0 d.start where
  placed := ⟨Trie.reset _, rfl, by simp [start, SearchPoint.new, Valid, rootNode, SuffixTree.reset]⟩
  nodup := by simp [start]
  ne_nil := List.cons_ne_nil _ _
  mass q := by
    rw [masses_zero, massAt, start, sumAt_cons, sumAt_nil, add_zero]
    have hroot : (SuffixTree.reset d.vocabulary.length).labels rootNode = [] :=
      Spells.root.labels_eq
    simp only [SearchPoint.new, SearchPoint.masses, hroot]

theorem length_pruned_le (d : BeamDecoder S) (ops : BeamFloatOps S) (beam : List (SearchPoint S)) :
    (d.pruned ops beam).length ≤ beam.length := by
  rw [pruned]
  refine (List.length_take_le' _ _).trans ?_
  split
  · exact List.length_filter_le _ _
  · exact le_refl _

theorem topKTokensInto_of_wide (htokens : ∀ k ∈ d.opts.beamSizeToken, d.totalVocab ≤ k)
    {frame : List S} (hframe : frame.length = d.totalVocab) :
    d.topKTokensInto ops orders frame = List.range d.totalVocab := by
  rw [topKTokensInto, hframe]
  cases hk : d.opts.beamSizeToken with
  | none => rfl
  | some k =>
    have hle := htokens k hk
    have hpos : k ≠ 0 := by rw [totalVocab] at hle; omega
    simp only [if_neg hpos, if_pos hle]

section Runs

variable [DecidableEq S]

variable (d ops orders logProbs) in
/-- A frame takes every token, and neither the threshold nor the truncation drops a point. -/
def Unpruned (frame : List S) (t : ℕ) (b : BeamScratch S) : Prop :=
  (d.topKTokensInto ops orders frame).Perm (List.range d.totalVocab) ∧
    ∀ s, d.extendBeam frame t (d.topKTokensInto ops orders frame) b = some s →
      d.pruned ops (sorted ops orders (dedup s.2)) = sorted ops orders (dedup s.2)

variable (d ops orders logProbs) in
def NothingPruned (n : ℕ) : Prop :=
  ∀ t < n, ∀ frame b, d.frameAt logProbs t = some frame →
    d.runFrames ops orders logProbs t = some (.ok b) → d.Unpruned ops orders frame t b

/-- One frame adds the alignments of one more label. -/
theorem frameStep_spec (hsum : d.Summed logProbs t b) {frame : List S}
    (hframe : frame.length = d.totalVocab)
    (hscore : ∀ c < d.totalVocab, frame.getD c 0 = d.score logProbs t c)
    (hunpruned : d.Unpruned ops orders frame t b) :
    ∃ b', d.frameStep ops orders frame t b = some b' ∧ d.Summed logProbs (t + 1) b' := by
  obtain ⟨htokens, hkept⟩ := hunpruned
  obtain ⟨s, hs, hplaced, hmass⟩ := extendBeam_spec hsum.placed hframe htokens t
  have hpruned := hkept s hs
  have hperm : (sorted ops orders (dedup s.2)).Perm (dedup s.2) := sorted_perm _
  refine ⟨⟨s.1, sorted ops orders (dedup s.2)⟩, by simp [frameStep, hs, hpruned], ?_, ?_, ?_, ?_⟩
  · refine ⟨hplaced.trie, hplaced.alphabetSize_eq, fun sp hsp => ?_⟩
    obtain ⟨sp', hsp', hnode⟩ := node_mem_of_dedup (hperm.mem_iff.mp hsp)
    exact hnode ▸ hplaced.valid sp' hsp'
  · exact (hperm.map _).nodup_iff.mpr (nodup_dedup _)
  · -- every point of the beam has pushed one for the blank
    have hlen := (extendBeam_length hs).1
    have hbeam := List.length_pos_iff.mpr hsum.ne_nil
    rw [htokens.length_eq, List.length_range] at hlen
    have hnext : s.2 ≠ [] := List.ne_nil_of_length_pos
      ((Nat.mul_pos hbeam (Nat.succ_pos _)).trans_le hlen)
    exact fun hnil => dedup_ne_nil hnext (by
      rw [show sorted ops orders (dedup s.2) = [] from hnil] at hperm
      exact hperm.nil_eq.symm)
  · intro q
    have hsorted : massAt s.1 q (sorted ops orders (dedup s.2)) = massAt s.1 q (dedup s.2) :=
      sumAt_perm _ _ _ hperm
    rw [hsorted, massAt_dedup, hmass q, masses_succ]
    -- both sides are one transition of the same keyed sums
    refine Eq.trans ?_ (sum_step_congr (fun sp : SearchPoint S => b.tree.labels sp.node)
      SearchPoint.masses (advanceAll d.blankId d.totalVocab (d.score logProbs) t q) fun k =>
        (hsum.mass k).trans (masses_eq d.blankId d.totalVocab (d.score logProbs) t k).symm)
    refine congrArg List.sum (List.map_congr_left fun sp _ => ?_)
    rw [advanceAll_apply]
    refine congrArg List.sum (List.map_congr_left fun c hc => ?_)
    rw [hscore c (List.mem_range.mp hc)]

/-- A run in which nothing is pruned. -/
theorem runFrames_spec (hslab : n * d.totalVocab ≤ logProbs.length)
    (hnan : ∀ v ∈ logProbs, ops.isNan v = false) (hwide : d.NothingPruned ops orders logProbs n)
    (ht : t ≤ n) :
    ∃ b, d.runFrames ops orders logProbs t = some (.ok b) ∧ d.Summed logProbs t b := by
  induction t with
  | zero => exact ⟨d.start, rfl, start_summed⟩
  | succ t ih =>
    obtain ⟨b, hb, hsum⟩ := ih (Nat.le_of_succ_le ht)
    obtain ⟨frame, hframe, hlen, hscore, hsub⟩ :=
      frameAt_eq ((Nat.mul_le_mul_right _ ht).trans hslab)
    obtain ⟨b', hb', hsum'⟩ := frameStep_spec hsum hlen hscore (hwide t ht frame b hframe hb)
    have hany : frame.any ops.isNan = false :=
      List.any_eq_false.mpr fun v hv => by rw [hnan v (hsub hv)]; exact Bool.false_ne_true
    have hloop : d.loopStep ops orders logProbs t b = some (.ok b') := by
      simp only [loopStep, hframe, Option.bind_eq_bind, Option.bind_some, hany,
        if_neg Bool.false_ne_true, hb', Option.map_some]
    exact ⟨b', by simp [runFrames, hb, hloop], hsum'⟩

/-- A frame is skipped for a NaN or decoded. -/
theorem runFrames_cases {b' : BeamScratch S}
    (h : d.runFrames ops orders logProbs (t + 1) = some (.ok b')) :
    ∃ frame b, d.frameAt logProbs t = some frame ∧
      d.runFrames ops orders logProbs t = some (.ok b) ∧
      (b' = b ∨ d.frameStep ops orders frame t b = some b') := by
  obtain ⟨r, hr, h⟩ := Option.bind_eq_some_iff.mp h
  cases r with
  | error e => cases h
  | ok b =>
    obtain ⟨frame, hframe, h⟩ := Option.bind_eq_some_iff.mp h
    refine ⟨frame, b, hframe, hr, ?_⟩
    have hstep : (d.frameStep ops orders frame t b).map Except.ok =
        (some (.ok b') : Option (Except DecodeError (BeamScratch S))) →
        d.frameStep ops orders frame t b = some b' := by
      intro h
      obtain ⟨b'', hb'', heq⟩ := Option.map_eq_some_iff.mp h
      cases heq
      exact hb''
    split at h
    · split at h
      · cases h
        exact .inl rfl
      · cases h
      · exact .inr (hstep h)
    · exact .inr (hstep h)

/-- A beam of no points at all is pruned at the first frame. -/
theorem beamSize_ne_zero (hslab : n * d.totalVocab ≤ logProbs.length)
    (hwide : d.NothingPruned ops orders logProbs n) (hn : 0 < n) : d.opts.beamSize ≠ 0 := by
  intro hzero
  obtain ⟨frame, hframe, hlen, hscore, -⟩ :=
    frameAt_eq (d := d) (t := 0) ((Nat.mul_le_mul_right _ hn).trans hslab)
  obtain ⟨b', hb', hsum'⟩ := frameStep_spec start_summed hlen hscore (hwide 0 hn frame _ hframe rfl)
  obtain ⟨s, -, heq⟩ := Option.bind_eq_some_iff.mp hb'
  cases heq
  exact hsum'.ne_nil (by simp [pruned, hzero])

/-! ## A wide beam -/

/-- A beam multiplies by two points for each token at most. -/
theorem length_next_le {frame : List S} {s : SuffixTree × List (SearchPoint S)}
    (htokens : d.topKTokensInto ops orders frame = List.range d.totalVocab)
    (hs : d.extendBeam frame t (d.topKTokensInto ops orders frame) b = some s) :
    (sorted ops orders (dedup s.2)).length ≤ b.beam.length * (d.totalVocab * 2) := by
  have hlen := (extendBeam_length hs).2
  rw [htokens, List.length_range] at hlen
  rw [(sorted_perm _).length_eq]
  exact (length_dedup_le _).trans hlen

theorem length_beam_le (htokens : ∀ k ∈ d.opts.beamSizeToken, d.totalVocab ≤ k)
    (h : d.runFrames ops orders logProbs t = some (.ok b)) :
    b.beam.length ≤ (d.totalVocab * 2) ^ t := by
  induction t generalizing b with
  | zero =>
    cases h
    simp [start]
  | succ t ih =>
    obtain ⟨frame, b₀, hframe, hb, hcase⟩ := runFrames_cases h
    rw [pow_succ]
    rcases hcase with rfl | hstep
    · exact (ih hb).trans (Nat.le_mul_of_pos_right _ (by rw [totalVocab]; omega))
    · obtain ⟨s, hs, heq⟩ := Option.bind_eq_some_iff.mp hstep
      cases heq
      have hnext := length_next_le (topKTokensInto_of_wide htokens (frameAt_length hframe)) hs
      exact (length_pruned_le d ops _).trans (hnext.trans (Nat.mul_le_mul_right _ (ih hb)))

/-- Without pruning options, a beam that has room for every push is never pruned. -/
theorem nothingPruned_of_wide (htokens : ∀ k ∈ d.opts.beamSizeToken, d.totalVocab ≤ k)
    (hthreshold : d.opts.beamThreshold = none)
    (hsize : (d.totalVocab * 2) ^ n ≤ d.opts.beamSize) :
    d.NothingPruned ops orders logProbs n := by
  intro t ht frame b hframe hb
  have hall : d.topKTokensInto ops orders frame = List.range d.totalVocab :=
    topKTokensInto_of_wide htokens (frameAt_length hframe)
  refine ⟨by rw [hall], fun s hs => ?_⟩
  have hroom : (sorted ops orders (dedup s.2)).length ≤ d.opts.beamSize :=
    calc (sorted ops orders (dedup s.2)).length
      _ ≤ b.beam.length * (d.totalVocab * 2) := length_next_le hall hs
      _ ≤ (d.totalVocab * 2) ^ t * (d.totalVocab * 2) :=
        Nat.mul_le_mul_right _ (length_beam_le htokens hb)
      _ = (d.totalVocab * 2) ^ (t + 1) := (pow_succ _ _).symm
      _ ≤ (d.totalVocab * 2) ^ n := Nat.pow_le_pow_right (by rw [totalVocab]; omega) ht
      _ ≤ d.opts.beamSize := hsize
  simp only [pruned, hthreshold, List.take_of_length_le hroom]

/-! ## The decoder -/

/-- Where nothing is pruned, the beam holds the sums over the alignments after every frame, and
    what is decoded is the prefix of its first point. -/
theorem beam_sums_alignments (d : BeamDecoder S) (ops : BeamFloatOps S) (orders : UnstableOrders S)
    (logProbs : List S) (strideFrames validFrames : ℕ)
    (hslab : min strideFrames validFrames * d.totalVocab ≤ logProbs.length)
    (hnan : ∀ v ∈ logProbs, ops.isNan v = false)
    (hwide : d.NothingPruned ops orders logProbs (min strideFrames validFrames)) :
    (∀ t ≤ min strideFrames validFrames, ∃ b,
      d.runFrames ops orders logProbs t = some (.ok b) ∧ d.Holds logProbs t b) ∧
    ∀ before, ∃ b best rest q frames,
      d.runFrames ops orders logProbs (min strideFrames validFrames) = some (.ok b) ∧
      b.beam = best :: rest ∧ b.tree.prefixOf best.node = some q ∧
      d.decode ops orders logProbs strideFrames validFrames before = some (.ok (d.text q)) ∧
      d.decodeWithTimestamps ops orders logProbs strideFrames validFrames before =
        some (.ok (d.text q, frames)) ∧ frames.length = q.length := by
  refine ⟨fun t ht => ?_, fun before => ?_⟩
  · obtain ⟨b, hb, hsum⟩ := runFrames_spec hslab hnan hwide ht
    exact ⟨b, hb, hsum.holds⟩
  · obtain ⟨b, hb, hsum⟩ := runFrames_spec hslab hnan hwide (le_refl _)
    obtain ⟨best, rest, q, hbeam, hprefix, hlabels, htext, frames, hframes, hlen⟩ := hsum.collect
    by_cases hidle : d.vocabulary = [] ∨ validFrames = 0 ∨ d.opts.beamSize = 0
    · -- nothing is decoded, and the beam has only the empty prefix
      have hq : q = [] := by
        have hzero : min strideFrames validFrames = 0 → q = [] := by
          intro hzero
          rw [hzero] at hb
          cases hb
          cases hbeam
          rw [SearchPoint.new, Spells.root.prefixOf_eq] at hprefix
          exact (Option.some.inj hprefix).symm
        rcases hidle with hvocab | hvalid | hsize
        · refine List.eq_nil_iff_forall_not_mem.mpr fun c hc => ?_
          have := hlabels c hc
          rw [hvocab] at this
          exact Nat.not_lt_zero c this
        · exact hzero (by rw [hvalid, Nat.min_zero])
        · refine hzero (Nat.eq_zero_of_not_pos fun hpos => ?_)
          exact beamSize_ne_zero hslab hwide hpos hsize
      obtain ⟨hroot, hrootFrames⟩ := collect_root d before
      refine ⟨b, best, rest, q, [], hb, hbeam, hprefix, ?_, ?_, by rw [hq]⟩
      · simp [decode, decodeToBestNode, hidle, hroot, hq, text]
      · simp [decodeWithTimestamps, decodeToBestNode, hidle, hrootFrames, hq, text]
    · have hbest : d.decodeToBestNode ops orders logProbs strideFrames validFrames before =
          some (.ok (best.node, b.tree)) := by
        rw [decodeToBestNode, if_neg hidle, hb, Option.map_some, Except.map, hbeam]
        rfl
      refine ⟨b, best, rest, q, frames, hb, hbeam, hprefix, ?_, ?_, hlen⟩
      · simp [decode, hbest, htext]
      · simp [decodeWithTimestamps, hbest, hframes]

end Runs

/-- The masses of a decoder that counts alignments. -/
def countOps : BeamFloatOps ℕ where
  partialCmp a b := some (compare a b)
  isNan _ := false
  minus a b := a - b

def twoTokens : BeamDecoder ℕ := ⟨["a", "b"], ⟨36, none, none, .skip⟩⟩

theorem beam_sums_alignments_twoTokens :
    (∀ t ≤ 2, ∃ b, twoTokens.runFrames countOps (.insertion ℕ) [3, 1, 2, 1, 5, 1] t =
      some (.ok b) ∧ twoTokens.Holds [3, 1, 2, 1, 5, 1] t b) ∧
    ∀ before, ∃ b best rest q frames,
      twoTokens.runFrames countOps (.insertion ℕ) [3, 1, 2, 1, 5, 1] 2 = some (.ok b) ∧
      b.beam = best :: rest ∧ b.tree.prefixOf best.node = some q ∧
      twoTokens.decode countOps (.insertion ℕ) [3, 1, 2, 1, 5, 1] 2 2 before =
        some (.ok (twoTokens.text q)) ∧
      twoTokens.decodeWithTimestamps countOps (.insertion ℕ) [3, 1, 2, 1, 5, 1] 2 2 before =
        some (.ok (twoTokens.text q, frames)) ∧ frames.length = q.length :=
  beam_sums_alignments twoTokens countOps (.insertion ℕ) [3, 1, 2, 1, 5, 1] 2 2 (by decide)
    (fun _ _ => rfl) (nothingPruned_of_wide (by decide) rfl (by decide))

end BeamDecoder

end Svod.Arch.Ctc
