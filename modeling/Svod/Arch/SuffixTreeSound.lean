/-
  Svod.Arch.SuffixTreeSound

  The suffix tree of the beam decoder is a trie: a node is a prefix, and two
  nodes are never the same one.

  `Spells` is the prefix of a node, read off the parent links; `Trie` is what the
  operations keep, that the child tables and the parent links are the same edges.
-/

import Svod.Arch.CtcBeam

namespace Svod.Arch.Ctc

namespace SuffixTree

/-! ## The prefix of a node -/

/-- The labels from the root to a node, along parents that come before their children. -/
inductive Spells (nodes : List LabelNode) : ℤ → List ℕ → Prop where
  | root : Spells nodes rootNode []
  | node {i : ℕ} {n : LabelNode} {q : List ℕ} (hnode : nodes[i]? = some n) (hlt : n.parent < i)
      (hparent : Spells nodes n.parent q) : Spells nodes i (q ++ [n.label])

variable {tree : SuffixTree} {nodes nodes' : List LabelNode} {node m n : ℤ} {q q' : List ℕ}

theorem Spells.mono (hnodes : nodes <+: nodes') (h : Spells nodes node q) :
    Spells nodes' node q := by
  induction h with
  | root => exact .root
  | node hnode hlt _ ih =>
    obtain ⟨rest, rfl⟩ := hnodes
    refine .node ?_ hlt ih
    rw [List.getElem?_append_left (List.getElem?_eq_some_iff.mp hnode).1, hnode]

/-- A walk of more steps than there are nodes up to the first reaches the root. -/
theorem Spells.walk_eq (h : Spells tree.nodes node q) {fuel : ℕ} (hfuel : node + 2 ≤ fuel) :
    ∃ w, tree.walk fuel node = some w ∧ w.reverse.map Prod.fst = q := by
  induction h generalizing fuel with
  | root =>
    cases fuel with
    | zero => simp [rootNode] at hfuel
    | succ fuel => exact ⟨[], by simp [walk, rootNode], rfl⟩
  | @node i n q hnode hlt _ ih =>
    cases fuel with
    | zero => omega
    | succ fuel =>
      obtain ⟨w, hw, hq⟩ := @ih fuel (by push_cast at hfuel; omega)
      refine ⟨(n.label, n.frame) :: w, ?_, ?_⟩
      · rw [walk, if_pos (Int.natCast_nonneg i), Int.toNat_natCast, hnode]
        simp [hw]
      · rw [List.reverse_cons, List.map_append, hq]
        rfl

theorem Spells.lt (h : Spells nodes node q) : node < nodes.length := by
  cases h with
  | root => rw [rootNode]; omega
  | node hnode _ _ => exact_mod_cast (List.getElem?_eq_some_iff.mp hnode).1

theorem Spells.iterFrom_eq (h : Spells tree.nodes node q) :
    ∃ w, tree.iterFrom node = some w ∧ w.reverse.map Prod.fst = q :=
  h.walk_eq (by have := h.lt; push_cast; omega)

theorem Spells.prefixOf_eq (h : Spells tree.nodes node q) : tree.prefixOf node = some q := by
  obtain ⟨w, hw, hq⟩ := h.iterFrom_eq
  rw [prefixOf, hw, Option.map_some, hq]

/-- The last label of a prefix is the label of its node. -/
theorem Spells.label_eq (h : Spells tree.nodes node q) : tree.label node = some q.getLast? := by
  cases h with
  | root => rfl
  | @node i n q hnode _ _ =>
    rw [label, if_pos (Int.natCast_nonneg i), Int.toNat_natCast, hnode, Option.map_some,
      List.getLast?_concat]

/-! ## The invariant -/

/-- A node id of the tree, the root's included. -/
def Valid (tree : SuffixTree) (node : ℤ) : Prop := -1 ≤ node ∧ node < tree.nodes.length

/-- The child tables and the parent links are the same edges. -/
structure Trie (tree : SuffixTree) : Prop where
  children_length : tree.children.length = tree.nodes.length * tree.alphabetSize
  rootChildren_length : tree.rootChildren.length = tree.alphabetSize
  parent_edge : ∀ (i : ℕ) n, tree.nodes[i]? = some n → -1 ≤ n.parent ∧ n.parent < i ∧
    n.label < tree.alphabetSize ∧ tree.childSlot n.parent n.label = some (i : ℤ)
  child_edge : ∀ node label c, tree.Valid node → label < tree.alphabetSize →
    tree.childSlot node label = some c → 0 ≤ c → ∃ frame, tree.nodes[c.toNat]? =
      some ⟨label, node, frame⟩

theorem Trie.reset (alphabetSize : ℕ) : Trie (reset alphabetSize) where
  children_length := by simp [SuffixTree.reset]
  rootChildren_length := by simp [SuffixTree.reset]
  parent_edge := by simp [SuffixTree.reset]
  child_edge := by
    intro node label c hvalid hlabel hslot hc
    have hroot : node = rootNode := by
      have hlow := hvalid.1
      have hhigh := hvalid.2
      simp only [SuffixTree.reset, List.length_nil] at hhigh
      rw [rootNode]
      omega
    rw [childSlot, if_pos hroot] at hslot
    change (List.replicate alphabetSize (-1 : ℤ))[label]? = some c at hslot
    rw [List.getElem?_replicate_of_lt (show label < alphabetSize from hlabel)] at hslot
    cases hslot
    omega

variable (h : Trie tree)

include h

/-- Every node has a prefix. -/
theorem Trie.exists_spells (hvalid : tree.Valid node) : ∃ q, Spells tree.nodes node q := by
  obtain ⟨k, hk⟩ : ∃ k : ℕ, node + 1 = k := ⟨(node + 1).toNat, by have := hvalid.1; omega⟩
  induction k using Nat.strong_induction_on generalizing node with
  | _ k ih =>
    by_cases hroot : node = rootNode
    · exact ⟨[], hroot ▸ .root⟩
    · have hlow := hvalid.1
      have hhigh := hvalid.2
      obtain ⟨i, rfl⟩ : ∃ i : ℕ, node = i := ⟨node.toNat, by simp only [rootNode] at hroot; omega⟩
      have hi : i < tree.nodes.length := by omega
      obtain ⟨hlow, hlt, -, -⟩ := h.parent_edge i _ (List.getElem?_eq_getElem hi)
      obtain ⟨q, hq⟩ := ih (tree.nodes[i].parent + 1).toNat (by omega) ⟨hlow, by omega⟩ (by omega)
      exact ⟨_, .node (List.getElem?_eq_getElem hi) hlt hq⟩

/-- Two nodes of one prefix are one node. -/
theorem Trie.spells_injective (hm : Spells tree.nodes m q) (hn : Spells tree.nodes n q) :
    m = n := by
  induction hm generalizing n with
  | root =>
    generalize hq : ([] : List ℕ) = r at hn
    cases hn with
    | root => rfl
    | node hnode hlt hparent => simp at hq
  | @node i x q hnode hlt _ ih =>
    generalize hq : q ++ [x.label] = r at hn
    cases hn with
    | root => simp at hq
    | @node j y q' hnode' hlt' hparent' =>
      obtain ⟨rfl, hlabel⟩ := List.append_inj' hq rfl
      simp only [List.cons.injEq, and_true] at hlabel
      have hslot := (h.parent_edge i x hnode).2.2.2
      rw [ih hparent', hlabel, (h.parent_edge j y hnode').2.2.2] at hslot
      exact (Option.some.inj hslot).symm

theorem Trie.label_lt (hq : Spells tree.nodes node q) : ∀ c ∈ q, c < tree.alphabetSize := by
  induction hq with
  | root => simp
  | node hnode _ _ ih =>
    intro c hc
    rcases List.mem_append.mp hc with hc | hc
    · exact ih c hc
    · rw [List.mem_singleton.mp hc]
      exact (h.parent_edge _ _ hnode).2.2.1

omit h

/-! ## Adding a node -/

theorem Valid.toNat_lt (hvalid : tree.Valid node) (hroot : node ≠ rootNode) :
    node.toNat < tree.nodes.length := by
  have hlow := hvalid.1
  have hhigh := hvalid.2
  rw [rootNode] at hroot
  omega

/-- The place of an edge in the flat table names the edge. -/
theorem edge_inj {a b i j width : ℕ} (hi : i < width) (hj : j < width)
    (heq : a * width + i = b * width + j) : a = b ∧ i = j := by
  have hdiv := congrArg (· / width) heq
  have hmod := congrArg (· % width) heq
  have hwidth : 0 < width := Nat.zero_lt_of_lt hi
  simp only [Nat.mul_comm _ width, Nat.mul_add_div hwidth, Nat.div_eq_of_lt hi,
    Nat.div_eq_of_lt hj, Nat.add_zero, Nat.mul_add_mod, Nat.mod_eq_of_lt hi,
    Nat.mod_eq_of_lt hj] at hdiv hmod
  exact ⟨hdiv, hmod⟩

theorem edge_lt {a i width len : ℕ} (ha : a < len) (hi : i < width) : a * width + i < len * width :=
  calc a * width + i < (a + 1) * width := by rw [Nat.succ_mul]; omega
    _ ≤ len * width := Nat.mul_le_mul_right _ ha

/-- What a node added to a trie changes: one edge, and a row of its own without any. -/
structure Added (tree : SuffixTree) (parent : ℤ) (label frame : ℕ) (tree' : SuffixTree) : Prop where
  alphabetSize_eq : tree'.alphabetSize = tree.alphabetSize
  nodes_eq : tree'.nodes = tree.nodes ++ [⟨label, parent, frame⟩]
  children_length : tree'.children.length = tree'.nodes.length * tree.alphabetSize
  rootChildren_length : tree'.rootChildren.length = tree.alphabetSize
  new_slot : tree'.childSlot parent label = some (tree.nodes.length : ℤ)
  fresh_slot : ∀ c, c < tree.alphabetSize →
    tree'.childSlot (tree.nodes.length : ℤ) c = some (-1)
  old_slot : ∀ n c, tree.Valid n → c < tree.alphabetSize → ¬ (n = parent ∧ c = label) →
    tree'.childSlot n c = tree.childSlot n c

theorem Trie.addNode_eq (h : Trie tree) {parent : ℤ} (hparent : tree.Valid parent) {label : ℕ}
    (hlabel : label < tree.alphabetSize) (frame : ℕ) :
    ∃ tree', tree.addNode parent label frame = some ((tree.nodes.length : ℤ), tree') ∧
      Added tree parent label frame tree' := by
  have hnew : (tree.nodes.length : ℤ) ≠ rootNode := by rw [rootNode]; omega
  have hlen := h.children_length
  by_cases hroot : parent = rootNode
  · -- the edge is in the table of the root
    refine ⟨_, by rw [addNode, if_pos hroot, if_pos (h.rootChildren_length ▸ hlabel)], ?_⟩
    constructor
    · rfl
    · rfl
    · simp [hlen, Nat.succ_mul]
    · simpa using h.rootChildren_length
    · rw [childSlot, if_pos hroot]
      exact List.getElem?_set_self (h.rootChildren_length ▸ hlabel)
    · intro c hc
      rw [childSlot, if_neg hnew, Int.toNat_natCast]
      dsimp only
      rw [List.getElem?_append_right (by omega), ← hlen, Nat.add_sub_cancel_left,
        List.getElem?_replicate_of_lt hc]
    · intro n c hn hc hne
      by_cases hn' : n = rootNode
      · have hcl : label ≠ c := fun heq => hne ⟨hn'.trans hroot.symm, heq.symm⟩
        rw [childSlot, childSlot, if_pos hn', if_pos hn']
        exact List.getElem?_set_ne hcl
      · have hlt := edge_lt (hn.toNat_lt hn') hc
        rw [childSlot, childSlot, if_neg hn', if_neg hn']
        exact List.getElem?_append_left (hlen ▸ hlt)
  · -- the edge is in the row of the parent
    have hslot := edge_lt (hparent.toNat_lt hroot) hlabel
    refine ⟨_, by rw [addNode, if_neg hroot, if_pos (hlen ▸ hslot)], ?_⟩
    constructor
    · rfl
    · rfl
    · simp [hlen, Nat.succ_mul]
    · exact h.rootChildren_length
    · rw [childSlot, if_neg hroot]
      dsimp only
      rw [List.getElem?_append_left (by rw [List.length_set]; omega),
        List.getElem?_set_self (by omega)]
    · intro c hc
      rw [childSlot, if_neg hnew, Int.toNat_natCast]
      dsimp only
      rw [List.getElem?_append_right (by rw [List.length_set]; omega), List.length_set, ← hlen,
        Nat.add_sub_cancel_left, List.getElem?_replicate_of_lt hc]
    · intro n c hn hc hne
      by_cases hn' : n = rootNode
      · rw [childSlot, childSlot, if_pos hn', if_pos hn']
      · have hlt := edge_lt (hn.toNat_lt hn') hc
        have hplace : parent.toNat * tree.alphabetSize + label ≠ n.toNat * tree.alphabetSize + c := by
          intro heq
          obtain ⟨hnat, rfl⟩ := edge_inj hlabel hc heq
          refine hne ⟨?_, rfl⟩
          have := hn.1
          have := hparent.1
          rw [rootNode] at hroot hn'
          omega
        rw [childSlot, childSlot, if_neg hn', if_neg hn']
        dsimp only
        rw [List.getElem?_append_left (by rw [List.length_set]; omega), List.getElem?_set_ne hplace]

theorem Trie.of_added (h : Trie tree) {parent : ℤ} (hparent : tree.Valid parent) {label : ℕ}
    (hlabel : label < tree.alphabetSize) {frame : ℕ} (hnone : ∀ c, tree.childSlot parent label =
      some c → c < 0) {tree' : SuffixTree} (hadd : Added tree parent label frame tree') :
    Trie tree' where
  children_length := by rw [hadd.alphabetSize_eq, hadd.children_length]
  rootChildren_length := by rw [hadd.alphabetSize_eq, hadd.rootChildren_length]
  parent_edge := by
    intro i n hi
    rw [hadd.alphabetSize_eq]
    rw [hadd.nodes_eq] at hi
    by_cases hlt : i < tree.nodes.length
    · rw [List.getElem?_append_left hlt] at hi
      obtain ⟨hlow, hbelow, hn, hslot⟩ := h.parent_edge i n hi
      refine ⟨hlow, hbelow, hn, ?_⟩
      rw [hadd.old_slot _ _ ⟨hlow, by omega⟩ hn, hslot]
      -- the new edge had no child before
      rintro ⟨hp, hl⟩
      have := hnone i (by rw [← hp, ← hl, hslot])
      omega
    · obtain rfl : i = tree.nodes.length := by
        have := (List.getElem?_eq_some_iff.mp hi).1
        simp only [List.length_append, List.length_singleton] at this
        omega
      rw [List.getElem?_concat_length] at hi
      cases hi
      exact ⟨hparent.1, hparent.2, hlabel, hadd.new_slot⟩
  child_edge := by
    intro n c child hvalid hc hslot hchild
    rw [hadd.alphabetSize_eq] at hc
    have hlen : tree'.nodes.length = tree.nodes.length + 1 := by
      rw [hadd.nodes_eq, List.length_append, List.length_singleton]
    by_cases hedge : n = parent ∧ c = label
    · obtain ⟨rfl, rfl⟩ := hedge
      rw [hadd.new_slot] at hslot
      cases hslot
      exact ⟨frame, by rw [hadd.nodes_eq, Int.toNat_natCast, List.getElem?_concat_length]⟩
    · by_cases hn : n = tree.nodes.length
      · rw [hn, hadd.fresh_slot c hc] at hslot
        cases hslot
        omega
      · have hold : tree.Valid n := ⟨hvalid.1, by have := hvalid.2; omega⟩
        rw [hadd.old_slot n c hold hc hedge] at hslot
        obtain ⟨f, hf⟩ := h.child_edge n c child hold hc hslot hchild
        refine ⟨f, ?_⟩
        rw [hadd.nodes_eq, List.getElem?_append_left (List.getElem?_eq_some_iff.mp hf).1, hf]

/-! ## The child of a node along a label -/

/-- What `childOrAdd` gives: a node whose prefix is one label longer, in a trie that has every node
    of the one before. -/
structure Child (tree : SuffixTree) (node : ℤ) (label : ℕ) (r : ℤ × SuffixTree) : Prop where
  trie : Trie r.2
  nodes_prefix : tree.nodes <+: r.2.nodes
  alphabetSize_eq : r.2.alphabetSize = tree.alphabetSize
  spells : ∀ q, Spells tree.nodes node q → Spells r.2.nodes r.1 (q ++ [label])

theorem Trie.childSlot_lt (h : Trie tree) (hvalid : tree.Valid node) {label : ℕ}
    (hlabel : label < tree.alphabetSize) : ∃ c, tree.childSlot node label = some c := by
  rw [childSlot]
  split
  · exact ⟨_, List.getElem?_eq_getElem (h.rootChildren_length ▸ hlabel)⟩
  · next hroot =>
    exact ⟨_, List.getElem?_eq_getElem (h.children_length ▸ edge_lt (hvalid.toNat_lt hroot) hlabel)⟩

theorem Trie.childOrAdd_spec (h : Trie tree) (hvalid : tree.Valid node) {label : ℕ}
    (hlabel : label < tree.alphabetSize) (frame : ℕ) :
    ∃ r, tree.childOrAdd node label frame = some r ∧ Child tree node label r := by
  obtain ⟨c, hc⟩ := h.childSlot_lt hvalid hlabel
  by_cases hchild : 0 ≤ c
  · -- the child is there
    refine ⟨(c, tree), by simp [childOrAdd, getChild, hc, hchild], h, List.prefix_refl _, rfl, ?_⟩
    intro q hq
    obtain ⟨f, hf⟩ := h.child_edge node label c hvalid hlabel hc hchild
    have hlt := (h.parent_edge _ _ hf).2.1
    have := Spells.node hf hlt hq
    rwa [Int.toNat_of_nonneg hchild] at this
  · obtain ⟨tree', hadd, hspec⟩ := h.addNode_eq hvalid hlabel frame
    have hnone : ∀ c', tree.childSlot node label = some c' → c' < 0 := by
      intro c' hc'
      rw [hc] at hc'
      cases hc'
      omega
    refine ⟨_, by simpa [childOrAdd, getChild, hc, hchild] using hadd,
      h.of_added hvalid hlabel hnone hspec, hspec.nodes_eq ▸ List.prefix_append _ _,
      hspec.alphabetSize_eq, ?_⟩
    intro q hq
    have hold : tree'.nodes[tree.nodes.length]? = some ⟨label, node, frame⟩ := by
      rw [hspec.nodes_eq, List.getElem?_concat_length]
    exact .node hold hvalid.2 (hq.mono (hspec.nodes_eq ▸ List.prefix_append _ _))

end SuffixTree

end Svod.Arch.Ctc
