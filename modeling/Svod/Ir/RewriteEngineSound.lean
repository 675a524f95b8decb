/-
  Svod.Ir.RewriteEngineSound

  The rewrite engine computes normal forms.

  Every move takes the pending entries down in a well-founded order, so the
  loop ends, and at the end nothing waits: the root has its normal form.
-/

import Mathlib.Logic.Equiv.List
import Mathlib.Logic.Hydra
import Svod.Ir.RewriteEngineInv

namespace Svod.Ir.RewriteEngine

open Relation Svod.Lib.Rewriting

variable {N : Type} [DecidableEq N] {G : Dag N} {pm : N → Option N} {lt : N → N → Prop}

/-! ## Termination -/

section Termination

open State

/-- How many visits an entry has in front of it, at most. -/
def Stage.rank : Stage → ℕ
  | .pushChildren => 2
  | .applyPatterns => 1
  | .link => 0

def Entry.key (e : Entry N) : N × ℕ := (e.n, e.stage.rank)

/-- The keys of the pending entries. -/
def State.pendingKeys (s : State N) : Multiset (N × ℕ) :=
  (s.stack : Multiset (Entry N)).map Entry.key +
    (s.waitlist : Multiset (N × Entry N)).map fun w => w.2.key

/-- The order of the keys: the lower node, then the later stage. -/
abbrev KeyLt (lt : N → N → Prop) : N × ℕ → N × ℕ → Prop := Prod.Lex lt (· < ·)

/-- A turn lowers the pending keys, or keeps them and shortens the stack. -/
def StateLt (lt : N → N → Prop) (s' s : State N) : Prop :=
  Prod.Lex (CutExpand (KeyLt lt)) (· < ·) (s'.pendingKeys, s'.stack.length)
    (s.pendingKeys, s.stack.length)

omit [DecidableEq N] in
theorem stateLt_wf (hwf : WellFounded lt) : WellFounded (StateLt lt) :=
  InvImage.wf (fun s : State N => (s.pendingKeys, s.stack.length))
    ((hwf.prod_lex wellFounded_lt).cutExpand.prod_lex wellFounded_lt)

variable {s s' : State N} {e : Entry N} {k r n m : N} {rest : List (Entry N)}

omit [DecidableEq N] in
theorem pendingKeys_push : (s.push e).pendingKeys = e.key ::ₘ s.pendingKeys := by
  simp [pendingKeys, State.push, ← Multiset.cons_coe]

omit [DecidableEq N] in
theorem pendingKeys_wait : (s.wait k e).pendingKeys = e.key ::ₘ s.pendingKeys := by
  have hwait : ((s.wait k e).waitlist : Multiset (N × Entry N)) = (k, e) ::ₘ s.waitlist := by
    rw [Multiset.cons_coe, Multiset.coe_eq_coe]
    exact List.perm_append_singleton _ _
  unfold pendingKeys
  rw [hwait, Multiset.map_cons, Multiset.add_cons]
  rfl

theorem pendingKeys_recordReplace : (s.recordReplace k r).pendingKeys = s.pendingKeys := by
  have hsplit := Multiset.filter_add_not (fun w : N × Entry N => w.1 = k) s.waitlist
  simp only [pendingKeys, recordReplace, ← Multiset.coe_add, Multiset.coe_reverse,
    Multiset.map_add, ← Multiset.map_coe, Multiset.map_map, ← Multiset.filter_coe]
  conv_rhs => rw [← hsplit, Multiset.map_add]
  simp only [Function.comp_def]
  rw [add_comm (Multiset.map _ (Multiset.filter _ _)), add_assoc]

theorem pendingKeys_pushChildren (hnew : e.newN = none) :
    (pushChildren G s e).pendingKeys =
      ((e.n, 1) ::ₘ ((freshKids s.onStack (G.children e.n).reverse).1 : Multiset N).map
        fun c => (c, 2)) + s.pendingKeys := by
  simp only [pendingKeys, pushChildren, hnew, Option.getD_none, ← Multiset.coe_add,
    Multiset.coe_reverse, ← Multiset.cons_coe, Multiset.map_add, Multiset.map_cons,
    ← Multiset.map_coe, Multiset.map_map, Function.comp_def, Entry.key, Stage.rank]
  simp only [Multiset.add_cons, Multiset.cons_add, add_assoc]

omit [DecidableEq N] in
theorem pendingKeys_of_pop (hstack : s.stack = e :: rest) :
    s.pendingKeys = e.key ::ₘ ({ s with stack := rest } : State N).pendingKeys := by
  simp [pendingKeys, hstack, ← Multiset.cons_coe]

omit [DecidableEq N] in
/-- Lower keys in the place of the popped one lower the state. -/
theorem stateLt_of_replace (hstack : s.stack = e :: rest) {t : Multiset (N × ℕ)}
    (ht : ∀ x ∈ t, KeyLt lt x e.key)
    (hkeys : s'.pendingKeys = t + ({ s with stack := rest } : State N).pendingKeys) :
    StateLt lt s' s := by
  refine Prod.Lex.left _ _ ?_
  rw [hkeys, pendingKeys_of_pop hstack, ← Multiset.singleton_add]
  exact (cutExpand_add_right _).mpr (cutExpand_singleton ht)

/-- A visit lowers the state. -/
theorem Move.stateLt (hc : Compatible G pm lt) (hstack : s.stack = e :: rest)
    (hm : Move G pm lt { s with stack := rest } e s') : StateLt lt s' s := by
  cases hm with
  | skip =>
    exact stateLt_of_replace hstack (t := 0) (by simp) (by rw [zero_add])
  | expand hstage hnew =>
    refine stateLt_of_replace hstack ?_ (pendingKeys_pushChildren hnew)
    intro x hx
    rcases Multiset.mem_cons.mp hx with rfl | hx
    · refine Prod.Lex.right _ ?_
      simp [hstage, Stage.rank]
    · obtain ⟨c, hkid, rfl⟩ := Multiset.mem_map.mp hx
      have hmem := (freshKids_spec s.onStack _).1 c hkid
      exact Prod.Lex.left _ _ (hc.child e.n c (List.mem_reverse.mp hmem))
  | wait k =>
    unfold StateLt
    rw [pendingKeys_wait, ← pendingKeys_of_pop hstack, hstack]
    exact Prod.Lex.right _ (Nat.lt_succ_self _)
  | follow m hlt _ hstage =>
    refine stateLt_of_replace hstack (t := {(m, 2), (e.n, 0)}) ?_ ?_
    · intro x hx
      simp only [Multiset.insert_eq_cons, Multiset.mem_cons, Multiset.mem_singleton] at hx
      rcases hx with rfl | rfl
      · exact Prod.Lex.left _ _ hlt
      · refine Prod.Lex.right _ ?_
        simp [hstage, Stage.rank]
    · unfold RewriteEngine.follow
      rw [pendingKeys_push, pendingKeys_push]
      rfl
  | record r =>
    refine stateLt_of_replace hstack (t := 0) (by simp) ?_
    rw [zero_add, pendingKeys_recordReplace]

end Termination

/-! ## The loop -/

section Loop

/-- One turn of the loop without the check of the stack limit. -/
def Turn (G : Dag N) (pm : N → Option N) (s s' : State N) : Prop :=
  ∃ e rest, s.stack = e :: rest ∧ visit G pm { s with stack := rest } e = some s'

/-- Some state of the unchecked loop has more entries than the limit lets through. -/
def Overflows (G : Dag N) (pm : N → Option N) (s : State N) : Prop :=
  ∃ s', ReflTransGen (Turn G pm) s s' ∧ rewriteStackLimit + 1 < s'.stack.length

/-- The loop either panics on its limit, and then its stack really grows above it, or it ends
    with the invariant and an empty stack. -/
theorem loop_outcome (hc : Compatible G pm lt) {root : N} {s : State N}
    (h : Inv G pm lt root s) :
    (Overflows G pm s ∧ ∃ fuel len, loop G pm fuel s = .stackTooBig len) ∨
    (¬ Overflows G pm s ∧ ∃ fuel s', loop G pm fuel s = .finished s' ∧
      Inv G pm lt root s' ∧ s'.stack = []) := by
  induction s using (stateLt_wf hc.wf).induction with
  | _ s ih =>
    cases hstack : s.stack with
    | nil =>
      refine Or.inr ⟨?_, 1, s, by simp [loop, step, hstack], h, hstack⟩
      rintro ⟨s', hreach, hbig⟩
      rcases ReflTransGen.cases_head hreach with rfl | ⟨_, ⟨e, rest, heq, _⟩, _⟩
      · simp [hstack] at hbig
      · rw [hstack] at heq
        cases heq
    | cons e rest =>
      by_cases hlimit : rewriteStackLimit < rest.length
      · refine Or.inl ⟨⟨s, .refl, ?_⟩, 1, rest.length, by simp [loop, step, hstack, hlimit]⟩
        rw [hstack, List.length_cons]
        exact Nat.succ_lt_succ hlimit
      · obtain ⟨s', hvisit, hm⟩ := visit_move hc h hstack
        have hstep : ∀ fuel, loop G pm (fuel + 1) s = loop G pm fuel s' := by
          intro fuel
          simp [loop, step, hstack, hlimit, hvisit]
        have hturn : Turn G pm s s' := ⟨e, rest, hstack, hvisit⟩
        rcases ih s' (hm.stateLt hc hstack) (hm.inv h hstack) with
          ⟨⟨t, hreach, hbig⟩, fuel, len, hloop⟩ | ⟨hsmall, fuel, t, hloop, hinv, hempty⟩
        · exact Or.inl ⟨⟨t, .head hturn hreach, hbig⟩, fuel + 1, len, (hstep fuel).trans hloop⟩
        · refine Or.inr ⟨?_, fuel + 1, t, (hstep fuel).trans hloop, hinv, hempty⟩
          rintro ⟨u, hreach, hbig⟩
          rcases ReflTransGen.cases_head hreach with rfl | ⟨v, ⟨e', rest', heq, hv⟩, htail⟩
          · rw [hstack, List.length_cons] at hbig
            omega
          · -- the turn is deterministic
            rw [hstack] at heq
            cases heq
            rw [hvisit] at hv
            cases hv
            exact hsmall ⟨u, htail, hbig⟩

/-- More fuel does not change a run that has ended. -/
theorem loop_add {s : State N} {fuel : ℕ} {out : Outcome N} (h : loop G pm fuel s = out)
    (hend : ∀ s', out ≠ .running s') (k : ℕ) : loop G pm (fuel + k) s = out := by
  induction fuel generalizing s with
  | zero => exact absurd h.symm (hend s)
  | succ fuel ih =>
    rw [Nat.succ_add]
    unfold loop at h ⊢
    cases hstep : step G pm s with
    | running s' =>
      rw [hstep] at h
      exact ih h
    | _ =>
      rw [hstep] at h
      exact h

/-- Two runs that have ended agree. -/
theorem loop_unique {s : State N} {fuel fuel' : ℕ} {out out' : Outcome N}
    (h : loop G pm fuel s = out) (hend : ∀ s', out ≠ .running s')
    (h' : loop G pm fuel' s = out') (hend' : ∀ s', out' ≠ .running s') : out = out' := by
  rw [← loop_add h hend fuel', Nat.add_comm, loop_add h' hend' fuel]

/-- What a run that has ended returns is the normal form of its root. -/
theorem norm_result (hc : Compatible G pm lt) {root : N} {fuel : ℕ} {s : State N}
    (h : graphRewrite G pm root fuel = .finished s) : Norm G pm root (s.result root) := by
  rcases loop_outcome hc (Inv.init root) with ⟨-, _, _, hout⟩ | ⟨-, _, _, hout, hinv, hempty⟩
  · cases loop_unique h nofun hout nofun
  · cases loop_unique h nofun hout nofun
    rcases hinv.root with ⟨r, hr⟩ | ⟨e, hmem | ⟨k, hmem⟩, -⟩
    · rw [State.result, hr]
      exact hinv.sound root r hr
    · rw [hempty] at hmem
      cases hmem
    · rw [hinv.waitlist_eq_nil hc.wf hempty] at hmem
      cases hmem

/-- `graph_rewrite` normalises.  It panics exactly when the stack of its run grows above the
    limit.  Otherwise it ends with nothing waiting and a result for the root, which is the
    normal form of the root: no node below it is matched, unless rebuilding a node over other
    sources can give the node back, and it is what the recursive specification computes, when
    a rebuilt node has exactly the sources it is rebuilt over. -/
theorem graphRewrite_normalises (hc : Compatible G pm lt) (root : N) :
    (Overflows G pm (State.init root) ∧
      ∃ fuel len, graphRewrite G pm root fuel = .stackTooBig len) ∨
    (¬ Overflows G pm (State.init root) ∧
      ∃ fuel s r, graphRewrite G pm root fuel = .finished s ∧ s.waitlist = [] ∧
        s.replace root = some r ∧ s.result root = r ∧ Norm G pm root r ∧
        (G.NoCollapse → ∀ m, G.Reachable r m → pm m = none) ∧
        (G.Exact → ∃ norm, IsNorm G pm norm ∧
          (∀ norm', IsNorm G pm norm' → norm' = norm) ∧ r = norm root)) := by
  rcases loop_outcome hc (Inv.init root) with h | ⟨hsmall, fuel, s, hloop, hinv, hempty⟩
  · exact Or.inl h
  · have hwait := hinv.waitlist_eq_nil hc.wf hempty
    -- nothing is pending, so the root has its result
    obtain ⟨r, hr⟩ : ∃ r, s.replace root = some r := by
      rcases hinv.root with hr | ⟨e, hmem | ⟨k, hmem⟩, _⟩
      · exact hr
      · rw [hempty] at hmem
        cases hmem
      · rw [hwait] at hmem
        cases hmem
    have hnorm := hinv.sound root r hr
    refine Or.inr ⟨hsmall, fuel, s, r, hloop, hwait, hr, ?_, hnorm, ?_, ?_⟩
    · rw [State.result, hr, Option.getD_some]
    · intro hG m hreach
      exact (hnorm.normal hG).unmatched hreach
    · intro hG
      obtain ⟨norm, his, huniq, hval⟩ := hc.exists_isNorm hG
      exact ⟨norm, his, huniq, hval root r hnorm⟩

end Loop

/-! ## A short run and a wide node -/

section Runs

/-- Double negation over `leaf`: the children of `neg x` are `[x]`. -/
inductive NegExpr where
  | leaf
  | neg (x : NegExpr)
  deriving DecidableEq

namespace NegExpr

def dag : Dag NegExpr where
  children
    | leaf => []
    | neg x => [x]
  withSources
    | leaf, _ => leaf
    | neg _, [y] => neg y
    | neg x, _ => neg x

/-- `neg (neg x) => x`. -/
def cancel : NegExpr → Option NegExpr
  | neg (neg x) => some x
  | _ => none

def depth : NegExpr → ℕ
  | leaf => 0
  | neg x => x.depth + 1

theorem cancel_compatible : Compatible dag cancel fun x y => x.depth < y.depth where
  wf := InvImage.wf depth wellFounded_lt
  trans _ _ _ := Nat.lt_trans
  child n c hc := by
    cases n with
    | leaf => simp [dag] at hc
    | neg x =>
      simp only [dag, List.mem_singleton] at hc
      rw [hc]
      exact Nat.lt_succ_self _
  rewrite n n' h := by
    match n, h with
    | neg (neg x), h =>
      cases h
      exact Nat.lt_succ_of_lt (Nat.lt_succ_self _)
  rebuild n cs h := by
    cases n with
    | leaf => exact Or.inl rfl
    | neg x =>
      obtain ⟨c, _, hc, hnil, rfl⟩ := List.forall₂_cons_right_iff.mp h
      rw [List.forall₂_nil_right_iff] at hnil
      rw [hnil]
      rcases hc with rfl | hlt
      · exact Or.inl rfl
      · exact Or.inr (Nat.succ_lt_succ hlt)

theorem dag_noCollapse : dag.NoCollapse := by
  intro n cs hlen hn
  cases n with
  | leaf => exact List.length_eq_zero_iff.mp hlen
  | neg x =>
    obtain ⟨y, rfl⟩ := List.length_eq_one_iff.mp hlen
    cases hn
    rfl

end NegExpr

/-- The run on `neg (neg (neg leaf))` ends, with `neg leaf`. -/
theorem graphRewrite_normalises_cancel :
    ∃ s, graphRewrite NegExpr.dag NegExpr.cancel (.neg (.neg (.neg .leaf))) 20 = .finished s ∧
      s.waitlist = [] ∧ s.result (.neg (.neg (.neg .leaf))) = .neg .leaf ∧
      Norm NegExpr.dag NegExpr.cancel (.neg (.neg (.neg .leaf))) (.neg .leaf) := by
  obtain ⟨s, hrun, hwait, hresult⟩ : ∃ s, graphRewrite NegExpr.dag NegExpr.cancel
      (.neg (.neg (.neg .leaf))) 20 = .finished s ∧ s.waitlist = [] ∧
      s.result (.neg (.neg (.neg .leaf))) = .neg .leaf := ⟨_, rfl, rfl, rfl⟩
  refine ⟨s, hrun, hwait, hresult, ?_⟩
  rcases graphRewrite_normalises NegExpr.cancel_compatible (.neg (.neg (.neg .leaf))) with
    ⟨-, fuel, len, hpanic⟩ | ⟨-, fuel, s', r, hfinished, -, -, hr, hnorm, -⟩
  · exact absurd (loop_unique hrun (by simp) hpanic (by simp)) (by simp)
  · cases loop_unique hrun (by simp) hfinished (by simp)
    cases hr.symm.trans hresult
    exact hnorm

/-- Rewriting what a rewrite has returned passes the stack's limit, or returns it again. -/
theorem graphRewrite_idempotent (hc : Compatible G pm lt) (hG : G.NoCollapse) (root r : N)
    (fuel : ℕ) {s : State N} (h : graphRewrite G pm root fuel = .finished s)
    (hr : s.result root = r) :
    (Overflows G pm (State.init r) ∧ ∃ fuel len, graphRewrite G pm r fuel = .stackTooBig len) ∨
    (¬ Overflows G pm (State.init r) ∧
      ∃ fuel s', graphRewrite G pm r fuel = .finished s' ∧ s'.result r = r) := by
  have hnorm : Norm G pm r r := hr ▸ ((norm_result hc h).normal hG).norm
  refine (loop_outcome hc (Inv.init r)).imp_right ?_
  rintro ⟨hsmall, fuel', s', hloop, -, -⟩
  exact ⟨hsmall, fuel', s', hloop, (norm_result hc hloop).unique hnorm⟩

theorem graphRewrite_idempotent_cancel :
    ∃ fuel s, graphRewrite NegExpr.dag NegExpr.cancel (.neg .leaf) fuel = .finished s ∧
      s.result (.neg .leaf) = .neg .leaf := by
  rcases graphRewrite_idempotent NegExpr.cancel_compatible NegExpr.dag_noCollapse
    (.neg (.neg (.neg .leaf))) _ 20 rfl rfl with ⟨-, fuel, len, hpanic⟩ | ⟨-, hagain⟩
  · -- a run of twenty turns ends, so no run of the same root panics
    obtain ⟨s, hrun⟩ : ∃ s, graphRewrite NegExpr.dag NegExpr.cancel (.neg .leaf) 20 =
      .finished s := ⟨_, rfl⟩
    exact absurd (loop_unique hrun (by simp) hpanic (by simp)) (by simp)
  · exact hagain

/-- Nodes without labels: a number stands for the list of its children. -/
def listDag : Dag ℕ where
  children n := Denumerable.ofNat (List ℕ) n
  withSources _ cs := Encodable.encode cs

theorem listDag_exact : listDag.Exact := by
  intro n cs _
  exact Denumerable.ofNat_encode cs

theorem lt_encode_of_mem {c : ℕ} {l : List ℕ} (h : c ∈ l) : c < Encodable.encode l := by
  induction l with
  | nil => cases h
  | cons a l ih =>
    rw [Encodable.encode_list_cons, Encodable.encode_nat, Nat.lt_succ_iff]
    rcases List.mem_cons.mp h with rfl | h
    · exact Nat.left_le_pair _ _
    · exact (ih h).le.trans (Nat.right_le_pair _ _)

theorem encode_le_encode {cs l : List ℕ} (h : List.Forall₂ (fun c' c => c' = c ∨ c' < c) cs l) :
    Encodable.encode cs ≤ Encodable.encode l := by
  induction h with
  | nil => exact le_rfl
  | @cons a b cs l hab _ ih =>
    rw [Encodable.encode_list_cons, Encodable.encode_list_cons, Encodable.encode_nat,
      Encodable.encode_nat]
    refine Nat.succ_le_succ ?_
    have hleft : StrictMono fun a => Nat.pair a (Encodable.encode cs) :=
      fun _ _ h => Nat.pair_lt_pair_left _ h
    have hright : StrictMono (Nat.pair b) := fun _ _ h => Nat.pair_lt_pair_right _ h
    calc Nat.pair a (Encodable.encode cs)
        ≤ Nat.pair b (Encodable.encode cs) := hleft.monotone (le_iff_eq_or_lt.mpr hab)
      _ ≤ Nat.pair b (Encodable.encode l) := hright.monotone ih

theorem listDag_compatible : Compatible listDag (fun _ => none) (· < ·) where
  wf := wellFounded_lt
  trans _ _ _ := Nat.lt_trans
  child n c hc := by
    have := lt_encode_of_mem hc
    rwa [listDag, Denumerable.encode_ofNat] at this
  rewrite _ _ h := by cases h
  rebuild n cs h := by
    have := encode_le_encode h
    rw [listDag, Denumerable.encode_ofNat] at this
    exact this.eq_or_lt

theorem freshKids_of_fresh {onStack : Finset N} {l : List N} (hnodup : l.Nodup)
    (hfresh : ∀ c ∈ l, c ∉ onStack) : (freshKids onStack l).1 = l := by
  induction l generalizing onStack with
  | nil => rfl
  | cons child rest ih =>
    obtain ⟨hhead, htail⟩ := List.nodup_cons.mp hnodup
    rw [freshKids, if_neg (hfresh child List.mem_cons_self)]
    refine congrArg _ (ih htail fun c hc hmem => ?_)
    rcases Finset.mem_insert.mp hmem with rfl | hmem
    · exact hhead hc
    · exact hfresh c (List.mem_cons_of_mem _ hc) hmem

/-- A node with more distinct children than the limit is never rewritten: the check on the
    stack fires when its first child is popped. -/
theorem graphRewrite_wide {root : N} (hnodup : (G.children root).Nodup)
    (hroot : root ∉ G.children root) (hwide : rewriteStackLimit < (G.children root).length) :
    graphRewrite G pm root 2 = .stackTooBig (G.children root).length := by
  have hkids : (freshKids {root} (G.children root).reverse).1 = (G.children root).reverse := by
    refine freshKids_of_fresh (List.nodup_reverse.mpr hnodup) fun c hc hmem => hroot ?_
    rw [Finset.mem_singleton] at hmem
    rw [hmem] at hc
    exact List.mem_reverse.mp hc
  obtain ⟨child, rest, hcons⟩ : ∃ child rest, G.children root = child :: rest :=
    List.exists_cons_of_ne_nil fun hnil => by simp [hnil] at hwide
  -- the first turn leaves every child on the stack, over the entry of the root
  have hfirst : ∃ s, step G pm (State.init root) = .running s ∧
      s.stack = ⟨child, .pushChildren, none⟩ :: (rest.map fun c => ⟨c, .pushChildren, none⟩)
        ++ [⟨root, .applyPatterns, none⟩] := by
    refine ⟨pushChildren G { State.init root with stack := [] } ⟨root, .pushChildren, none⟩,
      by simp [step, State.init, visit], ?_⟩
    simp only [pushChildren, State.init, Option.getD_none, hkids]
    simp [hcons]
  obtain ⟨s, hstep, hstack⟩ := hfirst
  have hlen : (G.children root).length = rest.length + 1 := by rw [hcons, List.length_cons]
  rw [hlen] at hwide ⊢
  have hsecond : step G pm s = .stackTooBig (rest.length + 1) := by
    simp [step, hstack, hwide]
  simp only [graphRewrite, loop, hstep, hsecond]

/-- The node of `rewriteStackLimit + 1` leaves-and-lists: `0`, `[0]` and so on. -/
def wideRoot : ℕ := Encodable.encode (List.range (rewriteStackLimit + 1))

/-- On `wideRoot`, with a matcher that matches nothing, no run ends with a result. -/
theorem graphRewrite_wideRoot_panics :
    Compatible listDag (fun _ => none) (· < ·) ∧ listDag.Exact ∧
      ∀ fuel s, graphRewrite listDag (fun _ => none) wideRoot fuel ≠ .finished s := by
  refine ⟨listDag_compatible, listDag_exact, fun fuel s hrun => ?_⟩
  have hchildren : listDag.children wideRoot = List.range (rewriteStackLimit + 1) :=
    Denumerable.ofNat_encode _
  have hpanic : graphRewrite listDag (fun _ => none) wideRoot 2 =
      .stackTooBig (listDag.children wideRoot).length := by
    refine graphRewrite_wide ?_ ?_ ?_
    · rw [hchildren]
      exact List.nodup_range
    · exact fun hmem => Nat.lt_irrefl _ (listDag_compatible.child _ _ hmem)
    · rw [hchildren, List.length_range]
      exact Nat.lt_succ_self _
  exact absurd (loop_unique hrun (by simp) hpanic (by simp)) (by simp)

end Runs

end Svod.Ir.RewriteEngine
