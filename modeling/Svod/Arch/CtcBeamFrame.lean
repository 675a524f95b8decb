/-
  Svod.Arch.CtcBeamFrame

  One frame of the beam decoder: what its pushes add up to, prefix by prefix, and
  the sweep that leaves one point for each node.

  `Grows` is what a push does to the tree and the points; the loops over the
  tokens and over the beam add up what their turns gain (`foldlM_grows`).
-/

import Svod.Arch.CtcAlignments
import Svod.Arch.SuffixTreeSound

namespace Svod.Arch.Ctc

open KeyedSums SuffixTree

namespace SuffixTree

/-- The prefix of a node of a trie. -/
def labels (tree : SuffixTree) (node : ℤ) : List ℕ := (tree.prefixOf node).getD []

variable {tree tree' : SuffixTree} {node : ℤ} {q : List ℕ}

theorem Spells.labels_eq (h : Spells tree.nodes node q) : tree.labels node = q := by
  rw [labels, h.prefixOf_eq, Option.getD_some]

theorem Trie.spells_labels (h : Trie tree) (hvalid : tree.Valid node) :
    Spells tree.nodes node (tree.labels node) := by
  obtain ⟨q, hq⟩ := h.exists_spells hvalid
  rwa [hq.labels_eq]

theorem Spells.valid (h : Spells tree.nodes node q) : tree.Valid node := by
  refine ⟨?_, h.lt⟩
  cases h with
  | root => exact le_refl _
  | node hnode _ _ => omega

/-- A node id with a prefix is one of the tree. -/
theorem valid_of_prefixOf (hlow : -1 ≤ node) (h : tree.prefixOf node = some q) :
    tree.Valid node := by
  refine ⟨hlow, ?_⟩
  by_contra hout
  have hnone : tree.nodes[node.toNat]? = none := List.getElem?_eq_none_iff.mpr (by omega)
  simp [prefixOf, iterFrom, walk, show 0 ≤ node by omega, hnone] at h

end SuffixTree

namespace BeamDecoder

variable {S : Type} [CommSemiring S] (d : BeamDecoder S)

/-! ## What the pushes of a frame add up to -/

/-- The masses of the points of the prefix `q`. -/
def massAt (tree : SuffixTree) (q : List ℕ) (points : List (SearchPoint S)) : S × S :=
  sumAt (fun sp => tree.labels sp.node) SearchPoint.masses (· = q) points

/-- Points at nodes of a trie over the vocabulary. -/
structure Placed (s : SuffixTree × List (SearchPoint S)) : Prop where
  trie : Trie s.1
  alphabetSize_eq : s.1.alphabetSize = d.vocabulary.length
  valid : ∀ sp ∈ s.2, s.1.Valid sp.node

/-- The tree has only grown, and the points have gained `gain` at each prefix. -/
structure Grows (s s' : SuffixTree × List (SearchPoint S)) (gain : List ℕ → S × S) : Prop where
  placed : d.Placed s'
  nodes_prefix : s.1.nodes <+: s'.1.nodes
  mass : ∀ q, massAt s'.1 q s'.2 = massAt s.1 q s.2 + gain q

variable {d} {s s' s'' : SuffixTree × List (SearchPoint S)} {gain gain' : List ℕ → S × S}

theorem Placed.grows_refl (h : d.Placed s) : d.Grows s s fun _ => 0 :=
  ⟨h, List.prefix_refl _, fun _ => (add_zero _).symm⟩

theorem Grows.trans (h : d.Grows s s' gain) (h' : d.Grows s' s'' gain') :
    d.Grows s s'' fun q => gain q + gain' q where
  placed := h'.placed
  nodes_prefix := h.nodes_prefix.trans h'.nodes_prefix
  mass q := by rw [h'.mass, h.mass, add_assoc]

/-- A loop gains what its turns gain. -/
theorem foldlM_grows {α : Type} {f : SuffixTree × List (SearchPoint S) → α →
      Option (SuffixTree × List (SearchPoint S))} {gain : α → List ℕ → S × S} (xs : List α)
    (hs : d.Placed s) (hstep : ∀ x ∈ xs, ∀ s', d.Placed s' → s.1.nodes <+: s'.1.nodes →
      ∃ s'', f s' x = some s'' ∧ d.Grows s' s'' (gain x)) :
    ∃ s', xs.foldlM f s = some s' ∧ d.Grows s s' fun q => (xs.map fun x => gain x q).sum := by
  induction xs generalizing s with
  | nil => exact ⟨s, rfl, by simpa using hs.grows_refl⟩
  | cons x xs ih =>
    obtain ⟨s₁, hf, hgrow⟩ := hstep x List.mem_cons_self s hs (List.prefix_refl _)
    obtain ⟨s₂, hfold, hrest⟩ := ih hgrow.placed fun y hy s' hs' hpre =>
      hstep y (List.mem_cons_of_mem x hy) s' hs' (hgrow.nodes_prefix.trans hpre)
    refine ⟨s₂, by simp [List.foldlM_cons, hf, hfold], ?_⟩
    simpa using hgrow.trans hrest

/-- A point pushed at a node of the tree. -/
theorem Placed.push (hs : d.Placed s) (sp : SearchPoint S) {q₀ : List ℕ}
    (hsp : Spells s.1.nodes sp.node q₀) :
    d.Grows s (s.1, s.2 ++ [sp]) fun q => if q₀ = q then sp.masses else 0 where
  placed := by
    refine ⟨hs.trie, hs.alphabetSize_eq, fun p hp => ?_⟩
    rcases List.mem_append.mp hp with hp | hp
    · exact hs.valid p hp
    · rw [List.mem_singleton.mp hp]
      exact hsp.valid
  nodes_prefix := List.prefix_refl _
  mass q := by simp [massAt, hsp.labels_eq]

/-- The tree may grow without any point. -/
theorem Placed.grow (hs : d.Placed s) {tree : SuffixTree} (htree : Trie tree)
    (hsize : tree.alphabetSize = s.1.alphabetSize) (hnodes : s.1.nodes <+: tree.nodes) :
    d.Grows s (tree, s.2) fun _ => 0 where
  placed := ⟨htree, hsize.trans hs.alphabetSize_eq, fun sp hsp =>
    ((hs.trie.spells_labels (hs.valid sp hsp)).mono hnodes).valid⟩
  nodes_prefix := hnodes
  mass q := by
    rw [add_zero]
    refine sumAt_congr _ _ fun sp hsp => ?_
    rw [((hs.trie.spells_labels (hs.valid sp hsp)).mono hnodes).labels_eq]

/-- A point pushed at the child of a node along a label. -/
theorem Placed.pushChild (hs : d.Placed s) {node : ℤ} {q₀ : List ℕ}
    (hnode : Spells s.1.nodes node q₀) {c : ℕ} (hc : c < d.vocabulary.length) (t : ℕ) :
    ∃ r, s.1.childOrAdd node c t = some r ∧ ∀ pB pNb,
      d.Grows s (r.2, s.2 ++ [.new r.1 pB pNb]) fun q => if q₀ ++ [c] = q then (pB, pNb) else 0 := by
  obtain ⟨r, hr, hchild⟩ :=
    hs.trie.childOrAdd_spec hnode.valid (hs.alphabetSize_eq.symm ▸ hc) t
  refine ⟨r, hr, fun pB pNb => ?_⟩
  have hgrow := hs.grow hchild.trie hchild.alphabetSize_eq hchild.nodes_prefix
  have hpush := hgrow.placed.push (.new r.1 pB pNb) (hchild.spells q₀ hnode)
  simpa [SearchPoint.new, SearchPoint.masses] using hgrow.trans hpush

/-! ## One point for each node -/

theorem merged_node (a b : SearchPoint S) : (SearchPoint.merged a b).node = a.node := rfl

theorem merged_masses (a b : SearchPoint S) :
    (SearchPoint.merged a b).masses = a.masses + b.masses := rfl

theorem dedup_eq (next : List (SearchPoint S)) :
    dedup next = [] ∧ next = [] ∨ ∃ last rest, (last :: rest).Perm next ∧
      ((last :: rest).Pairwise fun a b => a.node ≤ b.node) ∧
      dedup next = mergeRuns SearchPoint.node SearchPoint.merged last rest := by
  have hperm := List.perm_insertionSort (fun a b : SearchPoint S => a.node ≤ b.node) next
  have hsorted := List.pairwise_insertionSort (fun a b : SearchPoint S => a.node ≤ b.node) next
  rw [dedup]
  cases hcase : next.insertionSort fun a b => a.node ≤ b.node with
  | nil =>
    rw [hcase] at hperm
    exact .inl ⟨rfl, hperm.nil_eq.symm⟩
  | cons last rest =>
    rw [hcase] at hperm hsorted
    exact .inr ⟨last, rest, hperm, hsorted, rfl⟩

theorem massAt_dedup (tree : SuffixTree) (q : List ℕ) (next : List (SearchPoint S)) :
    massAt tree q (dedup next) = massAt tree q next := by
  rcases dedup_eq next with ⟨hnil, rfl⟩ | ⟨last, rest, hperm, -, heq⟩
  · rw [hnil]
  · -- a sum over prefixes is one over nodes
    have hnode : ∀ xs : List (SearchPoint S),
        massAt tree q xs = sumAt SearchPoint.node SearchPoint.masses (fun n => tree.labels n = q)
          xs := fun xs => sumAt_congr _ _ fun _ _ => Iff.rfl
    rw [hnode, hnode, heq, sumAt_mergeRuns _ _ merged_node merged_masses]
    exact sumAt_perm _ _ _ hperm

theorem nodup_dedup (next : List (SearchPoint S)) : ((dedup next).map SearchPoint.node).Nodup := by
  rcases dedup_eq next with ⟨hnil, -⟩ | ⟨last, rest, -, hsorted, heq⟩
  · rw [hnil]
    exact List.nodup_nil
  · rw [heq]
    exact List.pairwise_map.mpr
      ((mergeRuns_pairwise _ merged_node hsorted).imp fun hlt => ne_of_lt hlt)

theorem node_mem_of_dedup {next : List (SearchPoint S)} {sp : SearchPoint S}
    (h : sp ∈ dedup next) : ∃ sp' ∈ next, sp'.node = sp.node := by
  rcases dedup_eq next with ⟨hnil, -⟩ | ⟨last, rest, hperm, -, heq⟩
  · rw [hnil] at h
    cases h
  · rw [heq] at h
    obtain ⟨sp', hmem, hnode⟩ := key_mem_mergeRuns SearchPoint.node merged_node h
    exact ⟨sp', hperm.mem_iff.mp hmem, hnode⟩

/-! ## The pushes of a frame -/

section Frame

variable [DecidableEq S]

/-- One token after one point. -/
theorem extendToken_spec (hs : d.Placed s) {sp : SearchPoint S} {q₀ : List ℕ}
    (hsp : Spells s.1.nodes sp.node q₀) {frame : List S} {c : ℕ} {lp : S}
    (hlp : frame[c]? = some lp) (hc : c ≤ d.vocabulary.length) (t : ℕ) :
    ∃ s', d.extendToken frame t sp q₀.getLast? s c = some s' ∧
      d.Grows s s' fun q => advance d.blankId lp c q q₀ sp.masses := by
  dsimp only [advance, AddMonoidHom.coe_mk, ZeroHom.coe_mk, SearchPoint.masses]
  by_cases hblank : c = d.blankId
  · -- the prefix stays
    refine ⟨(s.1, s.2 ++ [.new sp.node (sp.logTotal * lp) 0]), ?_, ?_⟩
    · simp [extendToken, ← hblank, hlp]
    · have h := hs.push (.new sp.node (sp.logTotal * lp) 0) hsp
      simpa [hblank, SearchPoint.new, SearchPoint.masses, sp.logTotal_eq] using h
  · have hlt : c < d.vocabulary.length := lt_of_le_of_ne hc hblank
    by_cases htip : q₀.getLast? = some c
    · -- the run goes on, and after a blank the label comes again
      have h := hs.push (.new sp.node 0 (sp.pNb * lp)) hsp
      by_cases hpB : sp.pB = 0
      · refine ⟨(s.1, s.2 ++ [.new sp.node 0 (sp.pNb * lp)]), ?_, ?_⟩
        · simp [extendToken, hlp, hblank, htip, hpB]
        · simpa [hblank, htip, hpB, SearchPoint.new, SearchPoint.masses, Prod.mk_zero_zero] using h
      · obtain ⟨r, hr, hchild⟩ := h.placed.pushChild hsp hlt t
        refine ⟨(r.2, s.2 ++ [.new sp.node 0 (sp.pNb * lp)] ++ [.new r.1 0 (sp.pB * lp)]), ?_, ?_⟩
        · simp only at hr
          simp [extendToken, hlp, hblank, htip, hpB, hr]
        · simpa [hblank, htip, SearchPoint.new, SearchPoint.masses] using
            h.trans (hchild 0 (sp.pB * lp))
    · -- the prefix grows
      obtain ⟨r, hr, hchild⟩ := hs.pushChild hsp hlt t
      refine ⟨(r.2, s.2 ++ [.new r.1 0 (sp.logTotal * lp)]), ?_, ?_⟩
      · simp [extendToken, hlp, hblank, Ne.symm htip, hr]
      · simpa [hblank, htip, sp.logTotal_eq] using hchild 0 (sp.logTotal * lp)

/-- All tokens after one point. -/
theorem extendPoint_spec (hs : d.Placed s) {sp : SearchPoint S} {q₀ : List ℕ}
    (hsp : Spells s.1.nodes sp.node q₀) {frame : List S} (hframe : frame.length = d.totalVocab)
    {tokenBuf : List ℕ} (htokens : tokenBuf.Perm (List.range d.totalVocab)) (t : ℕ) :
    ∃ s', d.extendPoint frame t tokenBuf s sp = some s' ∧ d.Grows s s' fun q =>
      ((List.range d.totalVocab).map fun c =>
        advance d.blankId (frame.getD c 0) c q q₀ sp.masses).sum := by
  have hstep : ∀ c ∈ tokenBuf, ∀ s₁, d.Placed s₁ → s.1.nodes <+: s₁.1.nodes →
      ∃ s₂, d.extendToken frame t sp q₀.getLast? s₁ c = some s₂ ∧
        d.Grows s₁ s₂ fun q => advance d.blankId (frame.getD c 0) c q q₀ sp.masses := by
    intro c hc s₁ hs₁ hnodes
    have hlt : c < frame.length := hframe ▸ List.mem_range.mp (htokens.mem_iff.mp hc)
    have hlp : frame[c]? = some (frame.getD c 0) := by
      rw [List.getD_eq_getElem?_getD, List.getElem?_eq_getElem hlt, Option.getD_some]
    rw [hframe, totalVocab] at hlt
    exact extendToken_spec hs₁ (hsp.mono hnodes) hlp (Nat.le_of_lt_succ hlt) t
  obtain ⟨s', hfold, hgrow⟩ := foldlM_grows tokenBuf hs hstep
  refine ⟨s', ?_, hgrow.placed, hgrow.nodes_prefix, fun q => ?_⟩
  · simp [extendPoint, hsp.label_eq, hfold]
  · rw [hgrow.mass q, (htokens.map _).sum_eq]

/-- The pushes of a frame: at each prefix what the points before it advance to. -/
theorem extendBeam_spec {b : BeamScratch S} (hs : d.Placed (b.tree, b.beam)) {frame : List S}
    (hframe : frame.length = d.totalVocab) {tokenBuf : List ℕ}
    (htokens : tokenBuf.Perm (List.range d.totalVocab)) (t : ℕ) :
    ∃ s', d.extendBeam frame t tokenBuf b = some s' ∧ d.Placed s' ∧ ∀ q,
      massAt s'.1 q s'.2 = (b.beam.map fun sp => ((List.range d.totalVocab).map fun c =>
        advance d.blankId (frame.getD c 0) c q (b.tree.labels sp.node) sp.masses).sum).sum := by
  have hstart : d.Placed (b.tree, ([] : List (SearchPoint S))) :=
    ⟨hs.trie, hs.alphabetSize_eq, by simp⟩
  obtain ⟨s', hfold, hgrow⟩ := foldlM_grows b.beam hstart fun sp hsp s₁ hs₁ hnodes =>
    extendPoint_spec hs₁ ((hs.trie.spells_labels (hs.valid sp hsp)).mono hnodes) hframe htokens t
  refine ⟨s', hfold, hgrow.placed, fun q => ?_⟩
  rw [hgrow.mass q, massAt, sumAt_nil, zero_add]

end Frame

/-! ## The number of points -/

theorem foldlM_length {α : Type} {lo hi : ℕ} {f : SuffixTree × List (SearchPoint S) → α →
      Option (SuffixTree × List (SearchPoint S))} (hf : ∀ s x s', f s x = some s' →
      s.2.length + lo ≤ s'.2.length ∧ s'.2.length ≤ s.2.length + hi) (xs : List α)
    (h : xs.foldlM f s = some s') :
    s.2.length + xs.length * lo ≤ s'.2.length ∧ s'.2.length ≤ s.2.length + xs.length * hi := by
  induction xs generalizing s with
  | nil =>
    cases h
    simp
  | cons x xs ih =>
    rw [List.foldlM_cons] at h
    obtain ⟨s₁, hx, hxs⟩ := Option.bind_eq_some_iff.mp h
    have hstep := hf s x s₁ hx
    have hrest := ih hxs
    rw [List.length_cons, Nat.succ_mul, Nat.succ_mul]
    omega

theorem dedup_ne_nil {next : List (SearchPoint S)} (h : next ≠ []) : dedup next ≠ [] := by
  rcases dedup_eq next with ⟨-, hnil⟩ | ⟨last, rest, -, -, heq⟩
  · exact absurd hnil h
  · rw [heq]
    exact mergeRuns_ne_nil _ _ _ _

theorem length_dedup_le (next : List (SearchPoint S)) : (dedup next).length ≤ next.length := by
  rcases dedup_eq next with ⟨hnil, -⟩ | ⟨last, rest, hperm, -, heq⟩
  · rw [hnil]
    exact Nat.zero_le _
  · rw [heq, ← hperm.length_eq]
    exact length_mergeRuns_le _ _ _ _

variable [DecidableEq S]

/-- A token pushes one point or two. -/
theorem extendToken_length {frame : List S} {t : ℕ} {sp : SearchPoint S} {tip : Option ℕ} {c : ℕ}
    (h : d.extendToken frame t sp tip s c = some s') :
    s.2.length + 1 ≤ s'.2.length ∧ s'.2.length ≤ s.2.length + 2 := by
  rw [extendToken] at h
  obtain ⟨lp, -, h⟩ := Option.bind_eq_some_iff.mp h
  split at h
  · cases h
    simp
  · split at h
    · split at h
      · obtain ⟨r, -, h⟩ := Option.bind_eq_some_iff.mp h
        cases h
        simp
      · cases h
        simp
    · obtain ⟨r, -, h⟩ := Option.bind_eq_some_iff.mp h
      cases h
      simp

theorem extendBeam_length {b : BeamScratch S} {frame : List S} {t : ℕ} {tokenBuf : List ℕ}
    (h : d.extendBeam frame t tokenBuf b = some s') :
    b.beam.length * tokenBuf.length ≤ s'.2.length ∧
      s'.2.length ≤ b.beam.length * (tokenBuf.length * 2) := by
  have hpoint : ∀ s sp s', d.extendPoint frame t tokenBuf s sp = some s' →
      s.2.length + tokenBuf.length ≤ s'.2.length ∧
        s'.2.length ≤ s.2.length + tokenBuf.length * 2 := by
    intro s sp s' h
    obtain ⟨tip, -, h⟩ := Option.bind_eq_some_iff.mp h
    simpa using foldlM_length (fun s c s' => extendToken_length) tokenBuf h
  simpa using foldlM_length hpoint b.beam h

end BeamDecoder

end Svod.Arch.Ctc
