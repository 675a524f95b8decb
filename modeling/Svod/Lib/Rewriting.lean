/-
  Svod.Lib.Rewriting

  Normalisation of shared graphs by a rewriting function.

  A `Dag` says which children a node has and how a node is rebuilt over new
  children.  `Norm G pm n r` is the big-step reading of "rebuild over the
  normalised children, then rewrite": it holds whenever `n` normalises to `r`.
  Under an order compatible with the graph and the rewriting function, `Norm`
  is total, and for graphs rebuilt exactly it is the graph of the one function
  that satisfies the recursive equation `IsNorm`.
-/

import Mathlib.Data.List.Forall2
import Mathlib.Order.WellFounded

namespace Svod.Lib.Rewriting

open Relation

/-- A graph: the children of a node, and the node rebuilt over other children. -/
structure Dag (N : Type) where
  children : N → List N
  withSources : N → List N → N

namespace Dag

variable {N : Type} (G : Dag N)

/-- `n` over the children `cs`; over its own children it is `n` itself. -/
def rebuilt [DecidableEq N] (n : N) (cs : List N) : N :=
  if cs = G.children n then n else G.withSources n cs

/-- A rebuilt node has the children it was rebuilt over. -/
def Exact : Prop :=
  ∀ n cs, cs.length = (G.children n).length → G.children (G.withSources n cs) = cs

/-- Rebuilding over other children never gives the node back. -/
def NoCollapse : Prop :=
  ∀ n cs, cs.length = (G.children n).length → G.withSources n cs = n → cs = G.children n

/-- `m` can be reached from `n` by following children. -/
def Reachable : N → N → Prop := ReflTransGen (fun n c => c ∈ G.children n)

@[simp] theorem rebuilt_children [DecidableEq N] (n : N) :
    G.rebuilt n (G.children n) = n := by
  simp [rebuilt]

theorem Exact.noCollapse {G : Dag N} (h : G.Exact) : G.NoCollapse := by
  intro n cs hlen hn
  have := h n cs hlen
  rw [hn] at this
  exact this.symm

theorem Exact.children_rebuilt [DecidableEq N] {G : Dag N} (h : G.Exact) (n : N) (cs : List N)
    (hlen : cs.length = (G.children n).length) : G.children (G.rebuilt n cs) = cs := by
  unfold rebuilt
  split
  · next heq => exact heq.symm
  · exact h n cs hlen

theorem NoCollapse.eq_children [DecidableEq N] {G : Dag N} (h : G.NoCollapse) {n : N}
    {cs : List N} (hlen : cs.length = (G.children n).length) (hn : G.rebuilt n cs = n) :
    cs = G.children n := by
  unfold rebuilt at hn
  split at hn
  · assumption
  · exact h n cs hlen hn

end Dag

variable {N : Type} [DecidableEq N] {G : Dag N} {pm : N → Option N}

/-! ## The order -/

/-- `lt` is a well-founded order above the subterm relation in which a rewrite goes down, and
    in which a node rebuilt over children that are no larger is no larger. -/
structure Compatible (G : Dag N) (pm : N → Option N) (lt : N → N → Prop) : Prop where
  wf : WellFounded lt
  trans : ∀ a b c, lt a b → lt b c → lt a c
  child : ∀ n c, c ∈ G.children n → lt c n
  rewrite : ∀ n n', pm n = some n' → lt n' n
  rebuild : ∀ n cs, List.Forall₂ (fun c' c => c' = c ∨ lt c' c) cs (G.children n) →
    G.withSources n cs = n ∨ lt (G.withSources n cs) n

theorem Compatible.rebuilt {lt : N → N → Prop} (h : Compatible G pm lt) {n : N} {f : N → N}
    (hf : ∀ c ∈ G.children n, f c = c ∨ lt (f c) c)
    (hne : G.rebuilt n ((G.children n).map f) ≠ n) :
    lt (G.rebuilt n ((G.children n).map f)) n := by
  have hforall : List.Forall₂ (fun c' c => c' = c ∨ lt c' c) ((G.children n).map f)
      (G.children n) := by
    rw [List.forall₂_map_left_iff, List.forall₂_same]
    exact hf
  unfold Dag.rebuilt at hne ⊢
  split
  · next heq => exact absurd (if_pos heq) hne
  · next heq =>
    rw [if_neg heq] at hne
    exact (h.rebuild n _ hforall).resolve_left hne

/-! ## Normalisation as a relation -/

/-- `n` normalises to `r`.  `f` gives the normal forms of the children of `n`: a node that
    changes when it is rebuilt over them normalises to what the rebuilt node does, another one
    to what its rewrite does, and one that is not rewritten to itself. -/
inductive Norm (G : Dag N) (pm : N → Option N) : N → N → Prop where
  | rebuild {n r : N} (f : N → N) (hf : ∀ c ∈ G.children n, Norm G pm c (f c))
      (hne : G.rebuilt n ((G.children n).map f) ≠ n)
      (hr : Norm G pm (G.rebuilt n ((G.children n).map f)) r) : Norm G pm n r
  | rewrite {n n' r : N} (f : N → N) (hf : ∀ c ∈ G.children n, Norm G pm c (f c))
      (heq : G.rebuilt n ((G.children n).map f) = n) (hpm : pm n = some n')
      (hr : Norm G pm n' r) : Norm G pm n r
  | done {n : N} (f : N → N) (hf : ∀ c ∈ G.children n, Norm G pm c (f c))
      (heq : G.rebuilt n ((G.children n).map f) = n) (hpm : pm n = none) : Norm G pm n n

/-- Two choices of normal forms for the children of `n` are one when normal forms are unique. -/
private theorem map_eq_of_unique {n : N} {f g : N → N}
    (hf : ∀ c ∈ G.children n, ∀ r, Norm G pm c r → f c = r)
    (hg : ∀ c ∈ G.children n, Norm G pm c (g c)) :
    (G.children n).map f = (G.children n).map g :=
  List.map_congr_left fun c hc => hf c hc (g c) (hg c hc)

/-- A node has one normal form. -/
theorem Norm.unique {n r r' : N} (h : Norm G pm n r) (h' : Norm G pm n r') : r = r' := by
  induction h generalizing r' with
  | rebuild f _ hne _ ihf ihr =>
    cases h' with
    | rebuild g hg _ hr' =>
      rw [← map_eq_of_unique (fun c hc r => ihf c hc) hg] at hr'
      exact ihr hr'
    | rewrite g hg heq _ _ =>
      rw [← map_eq_of_unique (fun c hc r => ihf c hc) hg] at heq
      exact absurd heq hne
    | done g hg heq _ =>
      rw [← map_eq_of_unique (fun c hc r => ihf c hc) hg] at heq
      exact absurd heq hne
  | rewrite f _ heq hpm _ ihf ihr =>
    cases h' with
    | rebuild g hg hne _ =>
      rw [← map_eq_of_unique (fun c hc r => ihf c hc) hg] at hne
      exact absurd heq hne
    | rewrite _ _ _ hpm' hr' =>
      rw [hpm] at hpm'
      cases hpm'
      exact ihr hr'
    | done _ _ _ hpm' => rw [hpm] at hpm'; cases hpm'
  | done f _ heq hpm ihf =>
    cases h' with
    | rebuild g hg hne _ =>
      rw [← map_eq_of_unique (fun c hc r => ihf c hc) hg] at hne
      exact absurd heq hne
    | rewrite _ _ _ hpm' _ => rw [hpm] at hpm'; cases hpm'
    | done _ _ _ _ => rfl

section Order

variable {lt : N → N → Prop}

/-- Normalising goes down. -/
theorem Norm.le (hc : Compatible G pm lt) {n r : N} (h : Norm G pm n r) :
    r = n ∨ lt r n := by
  induction h with
  | rebuild f _ hne _ ihf ihr =>
    have hlt := hc.rebuilt ihf hne
    rcases ihr with heq | hrlt
    · rw [heq]; exact Or.inr hlt
    · exact Or.inr (hc.trans _ _ _ hrlt hlt)
  | rewrite _ _ _ hpm _ _ ihr =>
    have hlt := hc.rewrite _ _ hpm
    rcases ihr with heq | hrlt
    · rw [heq]; exact Or.inr hlt
    · exact Or.inr (hc.trans _ _ _ hrlt hlt)
  | done => exact Or.inl rfl

/-- Every node has a normal form. -/
theorem Compatible.exists_norm (hc : Compatible G pm lt) (n : N) : ∃ r, Norm G pm n r := by
  induction n using hc.wf.induction with
  | _ n ih =>
    -- the normal forms of the children, picked by the induction hypothesis
    have hchildren : ∀ c, ∃ r, c ∈ G.children n → Norm G pm c r := by
      intro c
      by_cases hmem : c ∈ G.children n
      · obtain ⟨r, hr⟩ := ih c (hc.child n c hmem)
        exact ⟨r, fun _ => hr⟩
      · exact ⟨c, fun h => absurd h hmem⟩
    choose f hf using hchildren
    by_cases heq : G.rebuilt n ((G.children n).map f) = n
    · cases hpm : pm n with
      | none => exact ⟨n, Norm.done f hf heq hpm⟩
      | some n' =>
        obtain ⟨r, hr⟩ := ih n' (hc.rewrite n n' hpm)
        exact ⟨r, Norm.rewrite f hf heq hpm hr⟩
    · have hlt := hc.rebuilt (fun c hmem => (hf c hmem).le hc) heq
      obtain ⟨r, hr⟩ := ih _ hlt
      exact ⟨r, Norm.rebuild f hf heq hr⟩

end Order

/-! ## Normal nodes -/

/-- No node at or below `n` is rewritten. -/
inductive Normal (G : Dag N) (pm : N → Option N) : N → Prop where
  | intro {n : N} (hchildren : ∀ c ∈ G.children n, Normal G pm c) (hpm : pm n = none) :
      Normal G pm n

omit [DecidableEq N] in
theorem Normal.unmatched {n m : N} (h : Normal G pm n) (hreach : G.Reachable n m) :
    pm m = none := by
  induction hreach using ReflTransGen.head_induction_on with
  | refl => cases h with | intro _ hpm => exact hpm
  | head hchild _ ih => cases h with | intro hchildren _ => exact ih (hchildren _ hchild)

theorem Normal.norm {n : N} (h : Normal G pm n) : Norm G pm n n := by
  induction h with
  | intro _ hpm ih => exact Norm.done id ih (by simp) hpm

/-- A normal form is normal. -/
theorem Norm.normal (hG : G.NoCollapse) {n r : N} (h : Norm G pm n r) : Normal G pm r := by
  induction h with
  | rebuild _ _ _ _ _ ihr => exact ihr
  | rewrite _ _ _ _ _ _ ihr => exact ihr
  | @done n f _ heq hpm ihf =>
    refine Normal.intro (fun c hc => ?_) hpm
    -- the node did not change, so its children are their own normal forms
    have hmap : (G.children n).map f = (G.children n).map id := by
      rw [List.map_id]
      exact hG.eq_children (by simp) heq
    have hfix : f c = c := List.map_inj_left.mp hmap c hc
    rw [← hfix]
    exact ihf c hc

/-! ## The recursive specification -/

/-- `norm` rebuilds a node over its normalised children, then normalises the rewrite of the
    rebuilt node, if there is one. -/
def IsNorm (G : Dag N) (pm : N → Option N) (norm : N → N) : Prop :=
  ∀ n, norm n =
    let m := G.rebuilt n ((G.children n).map norm)
    match pm m with
    | some m' => norm m'
    | none => m

/-- A solution that goes down is the only one. -/
theorem IsNorm.unique {lt : N → N → Prop} (hc : Compatible G pm lt) {norm norm' : N → N}
    (h : IsNorm G pm norm) (h' : IsNorm G pm norm')
    (hle : ∀ n, norm n = n ∨ lt (norm n) n) : norm' = norm := by
  funext n
  induction n using hc.wf.induction with
  | _ n ih =>
    have hmap : (G.children n).map norm' = (G.children n).map norm :=
      List.map_congr_left fun c hmem => ih c (hc.child n c hmem)
    rw [h n, h' n, hmap]
    simp only
    cases hpm : pm (G.rebuilt n ((G.children n).map norm)) with
    | none => rfl
    | some m' =>
      have hlt := hc.rewrite _ _ hpm
      by_cases heq : G.rebuilt n ((G.children n).map norm) = n
      · rw [heq] at hlt
        exact ih m' hlt
      · exact ih m' (hc.trans _ _ _ hlt (hc.rebuilt (fun c _ => hle c) heq))

/-- A function that picks normal forms satisfies the specification, when rebuilding is exact. -/
theorem isNorm_of_norm (hG : G.Exact) {norm : N → N} (h : ∀ n, Norm G pm n (norm n)) :
    IsNorm G pm norm := by
  intro n
  simp only
  have hcs := hG.children_rebuilt n ((G.children n).map norm) (by simp)
  generalize hm : G.rebuilt n ((G.children n).map norm) = m at hcs ⊢
  -- the children of the rebuilt node are normal, so it is not rebuilt again
  have hfix : ∀ c ∈ G.children m, Norm G pm c c := by
    intro c hc
    rw [hcs, List.mem_map] at hc
    obtain ⟨d, _, rfl⟩ := hc
    exact ((h d).normal hG.noCollapse).norm
  have hself : G.rebuilt m ((G.children m).map id) = m := by simp
  have hnorm : norm n = norm m := by
    by_cases heq : m = n
    · rw [heq]
    · have hne : G.rebuilt n ((G.children n).map norm) ≠ n := by rwa [hm]
      have hmm : Norm G pm (G.rebuilt n ((G.children n).map norm)) (norm m) := by
        rw [hm]; exact h m
      exact (h n).unique (Norm.rebuild norm (fun c _ => h c) hne hmm)
  rw [hnorm]
  cases hpm : pm m with
  | none => exact (h m).unique (Norm.done id hfix hself hpm)
  | some m' => exact (h m).unique (Norm.rewrite id hfix hself hpm (h m'))

/-- Where rebuilding is exact, the specification has exactly one solution, and it gives the
    normal forms. -/
theorem Compatible.exists_isNorm {lt : N → N → Prop} (hc : Compatible G pm lt) (hG : G.Exact) :
    ∃ norm, IsNorm G pm norm ∧ (∀ norm', IsNorm G pm norm' → norm' = norm) ∧
      ∀ n r, Norm G pm n r → r = norm n := by
  choose norm hnorm using hc.exists_norm
  have his := isNorm_of_norm hG hnorm
  exact ⟨norm, his, fun _ h' => his.unique hc h' fun n => (hnorm n).le hc,
    fun n r hr => hr.unique (hnorm n)⟩

end Svod.Lib.Rewriting
