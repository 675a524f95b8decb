/-
  Svod.Ir.RewriteEngineInv

  The loop invariant of the rewrite engine.

  `Inv` says that what `replace` records is a normal form, and that everything
  that is waited for is recorded or still has an entry.  A visit of the popped
  entry is one of five moves (`Move`), and each keeps `Inv`.
-/

import Svod.Ir.RewriteEngine

namespace Svod.Ir.RewriteEngine

open Relation Svod.Lib.Rewriting

variable {N : Type} [DecidableEq N] {G : Dag N} {pm : N → Option N} {lt : N → N → Prop}

/-! ## Pending entries -/

/-- The entry is on the stack or on the waitlist. -/
def State.Pending (s : State N) (e : Entry N) : Prop :=
  e ∈ s.stack ∨ ∃ k, (k, e) ∈ s.waitlist

/-- The node has a result or an entry that will give it one. -/
def State.Covered (s : State N) (k : N) : Prop :=
  (∃ r, s.replace k = some r) ∨ ∃ e, s.Pending e ∧ e.n = k

namespace State

variable {s : State N} {e e' : Entry N} {k n r : N}

omit [DecidableEq N] in
theorem Covered.of_pending (h : s.Pending e) : s.Covered e.n := Or.inr ⟨e, h, rfl⟩

omit [DecidableEq N] in
theorem pending_push : (s.push e').Pending e ↔ e = e' ∨ s.Pending e := by
  simp only [Pending, push, List.mem_cons, or_assoc]

omit [DecidableEq N] in
theorem pending_wait : (s.wait k e').Pending e ↔ e = e' ∨ s.Pending e := by
  simp only [Pending, wait, List.mem_append, List.mem_singleton, Prod.mk.injEq]
  constructor
  · rintro (h | ⟨j, h | ⟨-, rfl⟩⟩)
    · exact Or.inr (Or.inl h)
    · exact Or.inr (Or.inr ⟨j, h⟩)
    · exact Or.inl rfl
  · rintro (rfl | h | ⟨j, h⟩)
    · exact Or.inr ⟨k, Or.inr ⟨rfl, rfl⟩⟩
    · exact Or.inl h
    · exact Or.inr ⟨j, Or.inl h⟩

theorem pending_recordReplace : (s.recordReplace k r).Pending e ↔ s.Pending e := by
  simp only [Pending, recordReplace, List.mem_append, List.mem_reverse, List.mem_map,
    List.mem_filter, decide_eq_true_eq]
  constructor
  · rintro ((⟨⟨j, e'⟩, ⟨hmem, -⟩, rfl⟩ | h) | ⟨j, hmem, -⟩)
    · exact Or.inr ⟨j, hmem⟩
    · exact Or.inl h
    · exact Or.inr ⟨j, hmem⟩
  · rintro (h | ⟨j, hmem⟩)
    · exact Or.inl (Or.inr h)
    · by_cases hj : j = k
      · exact Or.inl (Or.inl ⟨(j, e), ⟨hmem, hj⟩, rfl⟩)
      · exact Or.inr ⟨j, hmem, hj⟩

omit [DecidableEq N] in
/-- The entries of a popped state, with the popped entry, are those of the state before. -/
theorem pending_of_pop {rest : List (Entry N)} (hstack : s.stack = e' :: rest) :
    s.Pending e ↔ e = e' ∨ ({ s with stack := rest } : State N).Pending e := by
  simp only [Pending, hstack, List.mem_cons, or_assoc]

end State

/-! ## The invariant -/

section Invariant

open State

/-- The entry is well formed, and what it will ask for is covered. -/
inductive EntryOk (G : Dag N) (pm : N → Option N) (lt : N → N → Prop) (s : State N) :
    Entry N → Prop where
  | pushChildren (n : N) : EntryOk G pm lt s ⟨n, .pushChildren, none⟩
  | applyPatterns (n : N) (children : ∀ c ∈ G.children n, s.Covered c) :
      EntryOk G pm lt s ⟨n, .applyPatterns, none⟩
  | link (n m : N) (lower : lt m n) (norm : ∀ r, Norm G pm m r → Norm G pm n r)
      (target : s.Covered m) : EntryOk G pm lt s ⟨n, .link, some m⟩

/-- The loop invariant of `rewrite` on `root`. -/
structure Inv (G : Dag N) (pm : N → Option N) (lt : N → N → Prop) (root : N) (s : State N) :
    Prop where
  sound : ∀ k r, s.replace k = some r → Norm G pm k r
  entries : ∀ e, s.Pending e → EntryOk G pm lt s e
  waiting : ∀ k e, (k, e) ∈ s.waitlist → s.replace k = none ∧ lt k e.n ∧ s.Covered k
  onStack : ∀ k ∈ s.onStack, s.Covered k
  root : s.Covered root

theorem EntryOk.mono {s s' : State N} {e : Entry N} (hmono : ∀ k, s.Covered k → s'.Covered k)
    (h : EntryOk G pm lt s e) : EntryOk G pm lt s' e := by
  cases h with
  | pushChildren n => exact .pushChildren n
  | applyPatterns n hc => exact .applyPatterns n fun c hmem => hmono c (hc c hmem)
  | link n m hlt hnorm ht => exact .link n m hlt hnorm (hmono m ht)

theorem Inv.init (root : N) : Inv G pm lt root (State.init root) := by
  have hroot : (State.init root).Covered root :=
    Covered.of_pending (e := ⟨root, .pushChildren, none⟩) (Or.inl (by simp [State.init]))
  refine ⟨?_, ?_, ?_, ?_, hroot⟩
  · intro k r h
    simp [State.init] at h
  · rintro e (hmem | ⟨k, hmem⟩)
    · simp only [State.init, List.mem_singleton] at hmem
      rw [hmem]
      exact .pushChildren root
    · simp [State.init] at hmem
  · intro k e hmem
    simp [State.init] at hmem
  · intro k hmem
    simp only [State.init, Finset.mem_singleton] at hmem
    rw [hmem]
    exact hroot

/-- With an empty stack nothing waits: the lowest waiting entry waits for a node that would
    have a lower one. -/
theorem Inv.waitlist_eq_nil (hwf : WellFounded lt) {root : N} {s : State N}
    (h : Inv G pm lt root s) (hstack : s.stack = []) : s.waitlist = [] := by
  have hnone : ∀ n k e, (k, e) ∈ s.waitlist → e.n ≠ n := by
    intro n
    induction n using hwf.induction with
    | _ n ih =>
      rintro k e hmem rfl
      obtain ⟨hrep, hlt, hcov⟩ := h.waiting k e hmem
      rcases hcov with ⟨r, hr⟩ | ⟨e', hpend, rfl⟩
      · rw [hrep] at hr
        cases hr
      · rcases hpend with hmem' | ⟨k', hmem'⟩
        · rw [hstack] at hmem'
          cases hmem'
        · exact ih e'.n hlt k' e' hmem' rfl
  rw [List.eq_nil_iff_forall_not_mem]
  rintro ⟨k, e⟩ hmem
  exact hnone e.n k e hmem rfl

end Invariant

/-! ## The moves -/

/-- What a visit of the entry of `n` can do to the state: nothing, when `n` has its result; the
    entry comes back after its children; it waits for a lower node that is covered; a lower node
    with the same normal form is followed; or the normal form of `n` is recorded. -/
inductive Move (G : Dag N) (pm : N → Option N) (lt : N → N → Prop) (s : State N) (e : Entry N) :
    State N → Prop where
  | skip (r : N) (done : s.replace e.n = some r) : Move G pm lt s e s
  | expand (stage : e.stage = .pushChildren) (newN : e.newN = none) :
      Move G pm lt s e (pushChildren G s e)
  | wait (k : N) (missing : s.replace k = none) (lower : lt k e.n) (covered : s.Covered k)
      (ok : EntryOk G pm lt s e) : Move G pm lt s e (s.wait k e)
  | follow (m : N) (lower : lt m e.n) (norm : ∀ r, Norm G pm m r → Norm G pm e.n r)
      (stage : e.stage = .applyPatterns) : Move G pm lt s e (follow s e.n m)
  | record (r : N) (norm : Norm G pm e.n r) : Move G pm lt s e (s.recordReplace e.n r)

omit [DecidableEq N] in
theorem resolveSources_error {replace : N → Option N} {sources : List N} {missing : N}
    (h : resolveSources replace sources = .error missing) :
    missing ∈ sources ∧ replace missing = none := by
  induction sources with
  | nil => cases h
  | cons src rest ih =>
    unfold resolveSources at h
    split at h
    · next hnone =>
      cases h
      exact ⟨List.mem_cons_self, hnone⟩
    · split at h
      · next herr =>
        cases h
        obtain ⟨hmem, hnone⟩ := ih herr
        exact ⟨List.mem_cons_of_mem _ hmem, hnone⟩
      · cases h

omit [DecidableEq N] in
theorem resolveSources_ok {replace : N → Option N} {sources resolved : List N}
    (h : resolveSources replace sources = .ok resolved) :
    resolved = sources.map (fun c => (replace c).getD c) ∧
      ∀ c ∈ sources, ∃ r, replace c = some r := by
  induction sources generalizing resolved with
  | nil =>
    cases h
    exact ⟨rfl, fun c hc => by cases hc⟩
  | cons src rest ih =>
    unfold resolveSources at h
    split at h
    · cases h
    · next rx hsome =>
      split at h
      · cases h
      · next hok =>
        cases h
        obtain ⟨heq, hall⟩ := ih hok
        refine ⟨by rw [heq, List.map_cons, hsome, Option.getD_some], fun c hc => ?_⟩
        rcases List.mem_cons.mp hc with rfl | hmem
        · exact ⟨rx, hsome⟩
        · exact hall c hmem

section Visit

/-- The patterns stage waits for a source, follows a node or records the node itself. -/
theorem applyPatterns_move (hc : Compatible G pm lt) {s : State N} {n : N}
    (hsound : ∀ k r, s.replace k = some r → Norm G pm k r)
    (hchildren : ∀ c ∈ G.children n, s.Covered c) :
    Move G pm lt s ⟨n, .applyPatterns, none⟩
      (applyPatterns G pm s ⟨n, .applyPatterns, none⟩) := by
  simp only [applyPatterns, Option.getD_none]
  cases hres : resolveSources s.replace (G.children n) with
  | error missing =>
    obtain ⟨hmem, hnone⟩ := resolveSources_error hres
    exact .wait missing hnone (hc.child n missing hmem) (hchildren missing hmem)
      (.applyPatterns n hchildren)
  | ok resolved =>
    obtain ⟨rfl, hall⟩ := resolveSources_ok hres
    have hf : ∀ c ∈ G.children n, Norm G pm c ((s.replace c).getD c) := by
      intro c hmem
      obtain ⟨r, hr⟩ := hall c hmem
      rw [hr, Option.getD_some]
      exact hsound c r hr
    change Move G pm lt s _ (if G.rebuilt n _ ≠ n then _ else _)
    split
    · next hne =>
      have hlt := hc.rebuilt (fun c hmem => (hf c hmem).le hc) hne
      exact .follow _ hlt (fun r hr => Norm.rebuild _ hf hne hr) rfl
    · next heq =>
      rw [not_not] at heq
      cases hpm : pm n with
      | none => exact .record n (Norm.done _ hf heq hpm)
      | some n' =>
        exact .follow n' (hc.rewrite n n' hpm) (fun r hr => Norm.rewrite _ hf heq hpm hr) rfl

variable {root : N} {s : State N} {e : Entry N} {rest : List (Entry N)}

omit [DecidableEq N] in
/-- Popping the entry of `n` leaves the other nodes covered. -/
theorem covered_pop {k : N} (hstack : s.stack = e :: rest) (h : s.Covered k) :
    k = e.n ∨ ({ s with stack := rest } : State N).Covered k := by
  rcases h with hr | ⟨e', hpend, rfl⟩
  · exact Or.inr (Or.inl hr)
  · rcases (State.pending_of_pop hstack).mp hpend with rfl | hpend'
    · exact Or.inl rfl
    · exact Or.inr (Or.inr ⟨e', hpend', rfl⟩)

/-- The visit of a popped entry does not fail and is a move. -/
theorem visit_move (hc : Compatible G pm lt) (h : Inv G pm lt root s)
    (hstack : s.stack = e :: rest) :
    ∃ s', visit G pm { s with stack := rest } e = some s' ∧
      Move G pm lt { s with stack := rest } e s' := by
  have hpop : ∀ {k}, s.Covered k → lt k e.n →
      ({ s with stack := rest } : State N).Covered k := by
    intro k hk hlt
    refine (covered_pop hstack hk).resolve_left fun heq => ?_
    rw [heq] at hlt
    exact hc.wf.irrefl.irrefl _ hlt
  have hok := h.entries e (Or.inl (by rw [hstack]; exact List.mem_cons_self))
  unfold visit
  split
  · next hdone =>
    obtain ⟨r, hr⟩ := Option.isSome_iff_exists.mp hdone
    exact ⟨_, rfl, .skip r hr⟩
  · cases hok with
    | pushChildren n => exact ⟨_, rfl, .expand rfl rfl⟩
    | applyPatterns n hchildren =>
      exact ⟨_, rfl, applyPatterns_move hc h.sound
        fun c hmem => hpop (hchildren c hmem) (hc.child n c hmem)⟩
    | link n m hlt hnorm htarget =>
      refine ⟨_, rfl, ?_⟩
      simp only [link]
      cases hm : s.replace m with
      | some r => exact .record r (hnorm r (h.sound m r hm))
      | none => exact .wait m hm hlt (hpop htarget hlt) (.link n m hlt hnorm (hpop htarget hlt))

end Visit

/-! ## Moves keep the invariant -/

theorem freshKids_spec (onStack : Finset N) (l : List N) :
    (∀ c ∈ (freshKids onStack l).1, c ∈ l) ∧
    (∀ c ∈ l, c ∈ onStack ∨ c ∈ (freshKids onStack l).1) ∧
    (∀ c ∈ (freshKids onStack l).2, c ∈ onStack ∨ c ∈ (freshKids onStack l).1) := by
  induction l generalizing onStack with
  | nil => simp [freshKids]
  | cons child rest ih =>
    unfold freshKids
    split
    · next hmem =>
      obtain ⟨hsub, hcov, hset⟩ := ih onStack
      refine ⟨fun c hc => List.mem_cons_of_mem _ (hsub c hc), fun c hc => ?_, hset⟩
      rcases List.mem_cons.mp hc with rfl | hc
      · exact Or.inl hmem
      · exact hcov c hc
    · obtain ⟨hsub, hcov, hset⟩ := ih (insert child onStack)
      -- a node of the larger set was there before or is the child itself
      have hsplit : ∀ c, c ∈ insert child onStack ∨ c ∈ (freshKids (insert child onStack) rest).1 →
          c ∈ onStack ∨ c ∈ child :: (freshKids (insert child onStack) rest).1 := by
        rintro c (hc | hc)
        · rcases Finset.mem_insert.mp hc with rfl | hc
          · exact Or.inr List.mem_cons_self
          · exact Or.inl hc
        · exact Or.inr (List.mem_cons_of_mem _ hc)
      refine ⟨fun c hc => ?_, fun c hc => ?_, fun c hc => hsplit c (hset c hc)⟩
      · rcases List.mem_cons.mp hc with rfl | hc
        · exact List.mem_cons_self
        · exact List.mem_cons_of_mem _ (hsub c hc)
      · rcases List.mem_cons.mp hc with rfl | hc
        · exact Or.inr List.mem_cons_self
        · exact hsplit c (hcov c hc)

section Preserve

open State

variable {s s' : State N} {e e' : Entry N} {k : N}

theorem pending_pushChildren (hnew : e.newN = none) :
    (pushChildren G s e).Pending e' ↔
      e' = ⟨e.n, .applyPatterns, none⟩ ∨ s.Pending e' ∨
      ∃ c ∈ (freshKids s.onStack (G.children e.n).reverse).1, e' = ⟨c, .pushChildren, none⟩ := by
  simp only [Pending, pushChildren, hnew, Option.getD_none, List.mem_append, List.mem_reverse,
    List.mem_map, List.mem_cons]
  constructor
  · rintro ((⟨c, hc, rfl⟩ | rfl | hmem) | hmem)
    · exact Or.inr (Or.inr ⟨c, hc, rfl⟩)
    · exact Or.inl rfl
    · exact Or.inr (Or.inl (Or.inl hmem))
    · exact Or.inr (Or.inl (Or.inr hmem))
  · rintro (rfl | (hmem | hmem) | ⟨c, hc, rfl⟩)
    · exact Or.inl (Or.inr (Or.inl rfl))
    · exact Or.inl (Or.inr (Or.inr hmem))
    · exact Or.inr hmem
    · exact Or.inl (Or.inl ⟨c, hc, rfl⟩)

omit [DecidableEq N] in
theorem pending_follow {n m : N} :
    (follow s n m).Pending e' ↔
      e' = ⟨m, .pushChildren, none⟩ ∨ e' = ⟨n, .link, some m⟩ ∨ s.Pending e' := by
  unfold follow
  rw [pending_push, pending_push]

/-- A move drops no entry. -/
theorem Move.pending_mono (h : Move G pm lt s e s') (hp : s.Pending e') : s'.Pending e' := by
  cases h with
  | skip => exact hp
  | expand _ hnew => exact (pending_pushChildren hnew).mpr (Or.inr (Or.inl hp))
  | wait => exact pending_wait.mpr (Or.inr hp)
  | follow m => exact pending_follow.mpr (Or.inr (Or.inr hp))
  | record => exact pending_recordReplace.mpr hp

/-- A move keeps the results, and records normal forms only. -/
theorem Move.replace_of (h : Move G pm lt s e s') :
    (∀ k r, s.replace k = some r → ∃ r', s'.replace k = some r') ∧
    ∀ k r, s'.replace k = some r → s.replace k = some r ∨ Norm G pm k r := by
  cases h with
  | record r hnorm =>
    refine ⟨fun k r' hr => ?_, fun k r' hr => ?_⟩
    · by_cases hk : k = e.n
      · exact ⟨r, by rw [hk]; simp [recordReplace]⟩
      · exact ⟨r', by simp [recordReplace, hk, hr]⟩
    · by_cases hk : k = e.n
      · rw [hk] at hr ⊢
        simp only [recordReplace, Function.update_self, Option.some.injEq] at hr
        rw [← hr]
        exact Or.inr hnorm
      · simp only [recordReplace, Function.update_of_ne hk] at hr
        exact Or.inl hr
  | _ => exact ⟨fun k r hr => ⟨r, hr⟩, fun k r hr => Or.inl hr⟩

/-- After a move the node of the popped entry is covered. -/
theorem Move.covered_self (h : Move G pm lt s e s') : s'.Covered e.n := by
  cases h with
  | skip r hr => exact Or.inl ⟨r, hr⟩
  | expand _ hnew =>
    exact Or.inr ⟨⟨e.n, .applyPatterns, none⟩, (pending_pushChildren hnew).mpr (Or.inl rfl), rfl⟩
  | wait => exact Covered.of_pending (pending_wait.mpr (Or.inl rfl))
  | follow m =>
    exact Or.inr ⟨⟨e.n, .link, some m⟩, pending_follow.mpr (Or.inr (Or.inl rfl)), rfl⟩
  | record r => exact Or.inl ⟨r, by simp [recordReplace]⟩

theorem Move.covered_mono (h : Move G pm lt s e s') (hk : s.Covered k) : s'.Covered k := by
  rcases hk with ⟨r, hr⟩ | ⟨e', hp, rfl⟩
  · exact Or.inl (h.replace_of.1 k r hr)
  · exact Covered.of_pending (h.pending_mono hp)

/-- What a move puts on the waitlist is missing, and waits for a lower node. -/
theorem Move.waiting (h : Move G pm lt s e s')
    (hs : ∀ k e', (k, e') ∈ s.waitlist → s.replace k = none ∧ lt k e'.n)
    (hmem : (k, e') ∈ s'.waitlist) :
    s'.replace k = none ∧ lt k e'.n ∧ ((k, e') ∈ s.waitlist ∨ s.Covered k) := by
  cases h with
  | wait k' hmissing hlt hcov =>
    simp only [State.wait, List.mem_append, List.mem_singleton, Prod.mk.injEq] at hmem
    rcases hmem with hmem | ⟨rfl, rfl⟩
    · exact ⟨(hs k e' hmem).1, (hs k e' hmem).2, Or.inl hmem⟩
    · exact ⟨hmissing, hlt, Or.inr hcov⟩
  | record r hnorm =>
    simp only [recordReplace, List.mem_filter, decide_eq_true_eq] at hmem
    obtain ⟨hmem, hne⟩ := hmem
    refine ⟨?_, (hs k e' hmem).2, Or.inl hmem⟩
    simp only [recordReplace, Function.update_of_ne hne]
    exact (hs k e' hmem).1
  | _ => exact ⟨(hs k e' hmem).1, (hs k e' hmem).2, Or.inl hmem⟩

/-- The invariant survives a visit. -/
theorem Move.inv {root : N} {rest : List (Entry N)} (h : Inv G pm lt root s)
    (hstack : s.stack = e :: rest) (hm : Move G pm lt { s with stack := rest } e s') :
    Inv G pm lt root s' := by
  have hmono : ∀ k, s.Covered k → s'.Covered k := by
    intro k hk
    rcases covered_pop hstack hk with rfl | hk'
    · exact hm.covered_self
    · exact hm.covered_mono hk'
  have hold : ∀ e', ({ s with stack := rest } : State N).Pending e' →
      EntryOk G pm lt s' e' := fun e' hp =>
    (h.entries e' ((pending_of_pop hstack).mpr (Or.inr hp))).mono hmono
  refine ⟨fun k r hr => ?_, ?_, fun k e' hmem => ?_, ?_, hmono root h.root⟩
  · exact (hm.replace_of.2 k r hr).elim (h.sound k r) id
  · intro e' hp
    cases hm with
    | skip => exact hold e' hp
    | expand _ hnew =>
      rcases (pending_pushChildren hnew).mp hp with rfl | hp | ⟨c, _, rfl⟩
      · -- a child was on the stack before, or is pushed now
        refine .applyPatterns e.n fun c hc => ?_
        rcases (freshKids_spec s.onStack _).2.1 c (List.mem_reverse.mpr hc) with hon | hkid
        · exact hmono c (h.onStack c hon)
        · exact Or.inr ⟨⟨c, .pushChildren, none⟩,
            (pending_pushChildren hnew).mpr (Or.inr (Or.inr ⟨c, hkid, rfl⟩)), rfl⟩
      · exact hold e' hp
      · exact .pushChildren c
    | wait k hmissing hlt hcov hok =>
      rcases pending_wait.mp hp with rfl | hp
      · exact hok.mono fun c hc => (Move.wait k hmissing hlt hcov hok).covered_mono hc
      · exact hold e' hp
    | follow m hlt hnorm hstage =>
      rcases pending_follow.mp hp with rfl | rfl | hp
      · exact .pushChildren m
      · refine .link e.n m hlt hnorm (Or.inr ⟨⟨m, .pushChildren, none⟩, ?_, rfl⟩)
        exact pending_follow.mpr (Or.inl rfl)
      · exact hold e' hp
    | record => exact hold e' (pending_recordReplace.mp hp)
  · have hs : ∀ k e', (k, e') ∈ s.waitlist → s.replace k = none ∧ lt k e'.n :=
      fun k e' hmem => ⟨(h.waiting k e' hmem).1, (h.waiting k e' hmem).2.1⟩
    obtain ⟨hnone, hlt, hcov⟩ := hm.waiting hs hmem
    refine ⟨hnone, hlt, hcov.elim (fun hmem => ?_) hm.covered_mono⟩
    exact hmono k (h.waiting k e' hmem).2.2
  · intro k hk
    cases hm with
    | expand _ hnew =>
      simp only [pushChildren, hnew, Option.getD_none] at hk
      rcases (freshKids_spec s.onStack _).2.2 k hk with hon | hkid
      · exact hmono k (h.onStack k hon)
      · exact Or.inr ⟨⟨k, .pushChildren, none⟩,
          (pending_pushChildren hnew).mpr (Or.inr (Or.inr ⟨k, hkid, rfl⟩)), rfl⟩
    | _ => exact hmono k (h.onStack k hk)

end Preserve

end Svod.Ir.RewriteEngine
