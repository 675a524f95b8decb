/-
  Svod.Late.GaterSound

  Moving gates into memory operations keeps stores and loads as they are.

  `Gates access gate clean` is what each rule does to an access; loads and stores
  follow from it.  A WHERE around a gated load hands its alternative to the load,
  through the dtype of the load and back, so it keeps its value exactly where the
  alternative survives that.  For machine integers it does whenever the WHERE is
  no wider than the load.
-/

import Svod.Late.Gater
import Svod.Lib.Fallible

namespace Svod.Late.Gater

open Svod Svod.Lib
open Gater.Expr

variable {α : Type} {S : Semantics α} {E : Env α} {e e' access gate clean alt value : Expr}
  {d : ScalarDType}

/-! ## Accesses -/

/-- The access goes where `clean` goes as long as `gate` holds, and nowhere else. -/
structure Gates (access gate clean : Expr) : Prop where
  dtype : clean.dtype = access.dtype
  holds : ∀ {α : Type} (S : Semantics α) (E : Env α), (gate.eval S E).truth S = true →
    access.eval S E = clean.eval S E
  fails : ∀ {α : Type} (S : Semantics α) (E : Env α), (gate.eval S E).truth S = false →
    ∀ p, access.eval S E ≠ .place p

theorem validIndex_eq_some (h : validIndex e = some (gate, clean)) :
    ∃ d, e = where_ gate clean .invalid d := by
  unfold validIndex at h
  split at h
  · next d =>
    simp only [Option.some.injEq, Prod.mk.injEq] at h
    obtain ⟨rfl, rfl⟩ := h
    exact ⟨d, rfl⟩
  · cases h

theorem eval_validIndex (h : validIndex e = some (gate, clean)) :
    e.eval S E = if (gate.eval S E).truth S then clean.eval S E else .invalid := by
  obtain ⟨d, rfl⟩ := validIndex_eq_some h
  rfl

theorem gates_moveImage (h : moveImage access = some (gate, clean)) : Gates access gate clean := by
  cases access with
  | index buffer indices d =>
    simp only [moveImage, bind_eq_some] at h
    obtain ⟨⟨g, indices'⟩, himage, h⟩ := h
    simp only [Option.some.injEq, Prod.mk.injEq] at h
    obtain ⟨rfl, rfl⟩ := h
    unfold imageGate at himage
    split at himage
    · next y x =>
      split at himage
      · simp only [bind_eq_some] at himage
        obtain ⟨⟨gy, iy⟩, hy, ⟨gx, ix⟩, hx, himage⟩ := himage
        split at himage
        · next heq =>
          simp only at heq
          subst heq
          simp only [Option.some.injEq, Prod.mk.injEq] at himage
          obtain ⟨rfl, rfl⟩ := himage
          refine ⟨rfl, fun S E hg => ?_, fun S E hg p => ?_⟩
          · simp [eval, eval_validIndex hy, eval_validIndex hx, hg]
          · simp [eval, eval_validIndex hy, hg, Value.cons, Value.element]
        · cases himage
      · cases himage
    · cases himage
  | _ => cases h

theorem gates_moveIndex (h : moveIndex access = some (gate, clean)) : Gates access gate clean := by
  cases access with
  | index buffer indices d =>
    simp only [moveIndex, bind_eq_some] at h
    obtain ⟨⟨g, indices'⟩, hfirst, h⟩ := h
    simp only [Option.some.injEq, Prod.mk.injEq] at h
    obtain ⟨rfl, rfl⟩ := h
    cases indices with
    | coord first rest =>
      simp only [firstGate, bind_eq_some] at hfirst
      obtain ⟨⟨gf, f⟩, hvalid, hfirst⟩ := hfirst
      simp only [Option.some.injEq, Prod.mk.injEq] at hfirst
      obtain ⟨rfl, rfl⟩ := hfirst
      refine ⟨rfl, fun S E hg => ?_, fun S E hg p => ?_⟩
      · simp [eval, eval_validIndex hvalid, hg]
      · simp [eval, eval_validIndex hvalid, hg, Value.cons, Value.element]
    | _ => cases hfirst
  | _ => cases h

theorem gates_moveShrink (h : moveShrink access = some (gate, clean)) :
    Gates access gate clean := by
  cases access with
  | shrink src offsets sizes d =>
    simp only [moveShrink, bind_eq_some] at h
    obtain ⟨⟨g, off⟩, hvalid, h⟩ := h
    simp only [Option.some.injEq, Prod.mk.injEq] at h
    obtain ⟨rfl, rfl⟩ := h
    refine ⟨rfl, fun S E hg => ?_, fun S E hg p => ?_⟩
    · simp [eval, eval_validIndex hvalid, hg]
    · simp [eval, eval_validIndex hvalid, hg, Value.window]
  | _ => cases h

/-! ## Loads and stores -/

theorem loadFrom_of_ne_place {memory : Place α → α} {zero : α} {v : Value α}
    (h : ∀ p, v ≠ .place p) : v.loadFrom memory zero = .scalar zero := by
  cases v with
  | place p => exact absurd rfl (h p)
  | _ => rfl

/-- A load through the gated access is the gated load of the clean one. -/
theorem Gates.eval_load (h : Gates access gate clean) :
    (gatedLoad clean (zero access.dtype) gate).eval S E = (load access).eval S E := by
  cases hg : (gate.eval S E).truth S with
  | true => simp [eval, hg, h.holds S E hg, h.dtype]
  | false => simp [eval, hg, loadFrom_of_ne_place (h.fails S E hg)]

theorem castTo_of_dtype_eq (h : e.dtype = d) : e.castTo d = e := if_pos h

theorem eval_moveLoadBy {move : Expr → Option (Expr × Expr)}
    (hmove : ∀ access gate clean, move access = some (gate, clean) → Gates access gate clean)
    (h : moveLoadBy move e = some e') : e'.eval S E = e.eval S E := by
  cases e with
  | load access =>
    simp only [moveLoadBy, bind_eq_some] at h
    obtain ⟨⟨gate, clean⟩, hm, h⟩ := h
    obtain rfl := Option.some.inj h
    exact (hmove _ _ _ hm).eval_load
  | _ => cases h

theorem eval_moveImageLoad (h : moveImageLoad e = some e') : e'.eval S E = e.eval S E := by
  cases e with
  | load access =>
    simp only [moveImageLoad, bind_eq_some] at h
    obtain ⟨⟨gate, clean⟩, hm, h⟩ := h
    obtain rfl := Option.some.inj h
    have hgates := gates_moveImage hm
    have hdtype : (gatedLoad clean (zero access.dtype) gate).dtype = access.dtype := hgates.dtype
    show ((gatedLoad clean (zero access.dtype) gate).castTo access.dtype).eval S E = _
    rw [castTo_of_dtype_eq hdtype]
    exact hgates.eval_load
  | _ => cases h

/-- A store through the gated access is the gated store to the clean one. -/
theorem effect_moveStoreBy {move : Expr → Option (Expr × Expr)}
    (hmove : ∀ access gate clean, move access = some (gate, clean) → Gates access gate clean)
    {s s' : Store} (h : moveStoreBy move s = some s') : s'.effect S E = s.effect S E := by
  obtain ⟨index, value, gate?⟩ := s
  cases gate? with
  | some _ => cases h
  | none =>
    simp only [moveStoreBy, bind_eq_some] at h
    obtain ⟨⟨gate, clean⟩, hm, h⟩ := h
    obtain rfl := Option.some.inj h
    have hgates := hmove _ _ _ hm
    cases hg : (gate.eval S E).truth S with
    | true => simp [Store.effect, hg, hgates.holds S E hg]
    | false =>
      simp only [Store.effect, Option.all_some, hg, Bool.false_eq_true, if_false, Option.all_none,
        if_true]
      cases hidx : index.eval S E with
      | place p => exact absurd hidx (hgates.fails S E hg p)
      | _ => rfl

/-! ## Alternatives -/

/-- A value node denotes a value or is Invalid. -/
theorem Expr.IsValue.cases (h : e.IsValue) : e.eval S E = .invalid ∨ ∃ v, e.eval S E = .scalar v := by
  induction e with
  | leaf id d => exact .inr ⟨_, rfl⟩
  | invalid => exact .inl rfl
  | zero d => exact .inr ⟨_, rfl⟩
  | not src => exact .inr ⟨_, rfl⟩
  | cast src d ih =>
    rcases ih h with hsrc | ⟨v, hsrc⟩
    · exact .inl (by simp [eval, hsrc, Value.castBy])
    · exact .inr ⟨_, by rw [eval, hsrc]; rfl⟩
  | where_ g a b d _ iha ihb =>
    rw [eval]
    split
    · exact iha h.1
    · exact ihb h.2
  | load access =>
    rw [eval]
    cases access.eval S E <;> exact .inr ⟨_, rfl⟩
  | gatedLoad access alt g _ ihalt =>
    rw [eval]
    split
    · cases access.eval S E <;> exact .inr ⟨_, rfl⟩
    · exact ihalt h
  | _ => exact h.elim

/-- Casting a value to its own dtype changes nothing, whether or not a node is built. -/
theorem eval_castTo (h : e.IsValue) :
    (e.castTo d).eval S E = (e.eval S E).castBy (S.cast e.dtype d) := by
  by_cases hd : e.dtype = d
  · rw [castTo_of_dtype_eq hd, hd]
    rcases h.cases (S := S) (E := E) with hv | ⟨v, hv⟩
    · rw [hv]
      rfl
    · rw [hv, Value.castBy, S.cast_self]
  · rw [Expr.castTo, if_neg hd]
    rfl

/-- The alternative comes back unchanged from the dtype `a` of the load: it was cast from there,
    or its value makes the round trip. -/
def Survives (S : Semantics α) (E : Env α) (alt : Expr) (a d : ScalarDType) : Prop :=
  (∃ src d', alt = .cast src d' ∧ src.dtype = a) ∨
    ∀ v, alt.eval S E = .scalar v → S.cast a d (S.cast d a v) = v

/-- `new` is `old`, where `old` is not Invalid. -/
def Keeps (old new : Value α) : Prop := old ≠ .invalid → new = old

/-- The alternative that reaches the load has the value of the old one, back in its dtype,
    exactly if it survives. -/
theorem keeps_loadAlt_iff {a : ScalarDType} (hvalue : alt.IsValue)
    (hdtype : alt = .invalid ∨ alt.dtype = d) :
    Keeps (alt.eval S E) (((loadAlt alt a).eval S E).castBy (S.cast a d)) ↔ Survives S E alt a d := by
  -- an alternative that is cast to the load and back
  have hround : alt.dtype = d → (Keeps (alt.eval S E)
      (((alt.castTo a).eval S E).castBy (S.cast a d)) ↔
        ∀ v, alt.eval S E = .scalar v → S.cast a d (S.cast d a v) = v) := by
    rintro rfl
    rw [eval_castTo hvalue]
    rcases hvalue.cases (S := S) (E := E) with hv | ⟨v, hv⟩
    · simp [Keeps, hv]
    · simp [Keeps, hv, Value.castBy]
  unfold loadAlt
  split
  · exact iff_of_true (fun h => absurd rfl h) (.inr fun v hv => by cases hv)
  · next src d' =>
    obtain rfl : d' = d := hdtype.resolve_left (by simp)
    split
    · next hsrc =>
      refine iff_of_true (fun _ => ?_) (.inl ⟨src, d', rfl, hsrc⟩)
      rw [← hsrc]
      rfl
    · next hsrc =>
      rw [hround rfl]
      refine ⟨.inr, ?_⟩
      rintro (⟨src', d'', heq, hsrc'⟩ | h)
      · cases heq
        exact absurd hsrc' hsrc
      · exact h
  · next hinvalid hcast =>
    rw [hround (hdtype.resolve_left hinvalid)]
    refine ⟨.inr, ?_⟩
    rintro (⟨src', d'', heq, -⟩ | h)
    · exact absurd heq (hcast src' d'')
    · exact h

/-- It is the value of the old one even where that is Invalid, except for the marker itself,
    which the load replaces by zero. -/
theorem eval_loadAlt_iff {a : ScalarDType} (hvalue : alt.IsValue)
    (hdtype : alt = .invalid ∨ alt.dtype = d) :
    ((loadAlt alt a).eval S E).castBy (S.cast a d) = alt.eval S E ↔
      Survives S E alt a d ∧ alt ≠ .invalid := by
  have hkeeps := keeps_loadAlt_iff (S := S) (E := E) (a := a) hvalue hdtype
  by_cases hmarker : alt = .invalid
  · subst hmarker
    refine iff_of_false (fun h => ?_) (fun h => h.2 rfl)
    simp [loadAlt, eval, Value.castBy] at h
  · rw [and_iff_left hmarker, ← hkeeps]
    refine ⟨fun h _ => h, fun h => ?_⟩
    rcases hvalue.cases (S := S) (E := E) with hv | ⟨v, hv⟩
    · -- what is Invalid without being the marker is handed through as it is
      have hload : (loadAlt alt a).eval S E = .invalid := by
        have hcast : (alt.castTo a).eval S E = .invalid := by rw [eval_castTo hvalue, hv]; rfl
        unfold loadAlt
        split
        · exact absurd rfl hmarker
        · next src d' =>
          split
          · rcases Expr.IsValue.cases (e := src) (S := S) (E := E) hvalue with hs | ⟨w, hs⟩
            · exact hs
            · rw [eval, hs] at hv
              cases hv
          · exact hcast
        · exact hcast
      rw [hload, hv]
      rfl
    · exact h (by rw [hv]; simp)

theorem loadAlt_isValue {a : ScalarDType} (h : alt.IsValue) : (loadAlt alt a).IsValue := by
  have hcast : ∀ {x : Expr}, x.IsValue → (x.castTo a).IsValue := by
    intro x hx
    unfold Expr.castTo
    split <;> exact hx
  unfold loadAlt
  split
  · trivial
  · split
    · exact h
    · exact hcast h
  · exact hcast h

/-! ## The rules on WHERE -/

/-- The gate of the load holds when the WHERE selects the branch of the load. -/
theorem truth_of_gateMatches {loadGate : Expr} {inverted : Bool}
    (h : gateMatches loadGate gate inverted = true) :
    (loadGate.eval S E).truth S = ((gate.eval S E).truth S ^^ inverted) := by
  cases inverted with
  | false =>
    obtain rfl : loadGate = gate := by simpa [gateMatches] using h
    simp
  | true =>
    cases loadGate with
    | not inner =>
      obtain rfl : inner = gate := by simpa [gateMatches] using h
      simp [eval, Value.truth, S.truth_ofBool]
    | _ => cases h

theorem gatedLoadOf_eq_some {loadGate : Expr} {inverted : Bool}
    (h : gatedLoadOf value gate inverted = some (access, loadGate)) :
    (∃ alt₀, stripCast value = gatedLoad access alt₀ loadGate) ∧
      gateMatches loadGate gate inverted = true := by
  unfold gatedLoadOf at h
  split at h
  · split at h
    · next access' alt₀ loadGate' hstrip =>
      split at h
      · next hmatch =>
        simp only [Option.some.injEq, Prod.mk.injEq] at h
        obtain ⟨rfl, rfl⟩ := h
        exact ⟨⟨alt₀, hstrip⟩, hmatch⟩
      · cases h
    · cases h
  · cases h

/-- The branch of the load, where its gate holds: what is loaded, in the dtype of the WHERE. -/
theorem eval_branch {alt₀ loadGate : Expr} (hvalue : BranchTyped d value)
    (hstrip : stripCast value = gatedLoad access alt₀ loadGate)
    (hgate : (loadGate.eval S E).truth S = true) :
    value.eval S E = ((access.eval S E).loadFrom E.memory (S.zero access.dtype)).castBy
      (S.cast access.dtype d) := by
  obtain ⟨-, htyped⟩ := hvalue
  cases value with
  | gatedLoad access' alt' gate' =>
    simp only [stripCast, gatedLoad.injEq] at hstrip
    obtain ⟨rfl, rfl, rfl⟩ := hstrip
    obtain rfl : access'.dtype = d := htyped.resolve_left (by simp)
    rw [eval, if_pos hgate]
    cases access'.eval S E <;> simp [Value.loadFrom, Value.castBy, S.cast_self]
  | cast src d' =>
    obtain rfl : src = gatedLoad access alt₀ loadGate := hstrip
    obtain rfl : d' = d := htyped.resolve_left (by simp)
    rw [eval, eval, if_pos hgate]
    rfl
  | _ => cases hstrip

/-- The rewritten WHERE: the branch of the load, or the alternative by way of the load. -/
theorem eval_moveWhereLoad {loadGate : Expr} {inverted : Bool} (hvalue : BranchTyped d value)
    (halt : BranchTyped d alt)
    (hload : gatedLoadOf value gate inverted = some (access, loadGate))
    (h : moveWhereLoad gate value alt d inverted = some e') :
    e'.eval S E = if ((gate.eval S E).truth S ^^ inverted) then value.eval S E
      else ((loadAlt alt access.dtype).eval S E).castBy (S.cast access.dtype d) := by
  obtain ⟨⟨alt₀, hstrip⟩, hmatch⟩ := gatedLoadOf_eq_some hload
  have htruth := truth_of_gateMatches (S := S) (E := E) hmatch
  simp only [moveWhereLoad, hload, Option.bind_eq_bind, Option.bind_some, Option.some.injEq] at h
  subst h
  rw [eval_castTo (e := gatedLoad access (loadAlt alt access.dtype) loadGate)
    (loadAlt_isValue halt.1), ← htruth, eval]
  show Value.castBy (S.cast access.dtype d) _ = _
  cases hg : (loadGate.eval S E).truth S with
  | true =>
    simp only [if_true]
    exact (eval_branch hvalue hstrip hg).symm
  | false => simp only [Bool.false_eq_true, if_false]

/-- The gate of a WHERE, the alternative that its rewriting hands to a load, the dtype of that
    load, and the truth of the gate that selects the alternative. -/
def handed : Expr → Option (Expr × Expr × ScalarDType × Bool)
  | where_ gate a b _ =>
    match gatedLoadOf a gate false with
    | some (access, _) => some (gate, b, access.dtype, false)
    | none => (gatedLoadOf b gate true).map fun load => (gate, a, load.1.dtype, true)
  | _ => none

/-- The alternative that a node's rewriting hands to a load survives, if it is selected. -/
def AltSurvives (S : Semantics α) (E : Env α) (e : Expr) : Prop :=
  ∀ gate alt a selects, handed e = some (gate, alt, a, selects) →
    (gate.eval S E).truth S = selects → Survives S E alt a e.dtype

/-- That alternative is not the Invalid marker, if it is selected. -/
def AltPresent (S : Semantics α) (E : Env α) (e : Expr) : Prop :=
  ∀ gate alt a selects, handed e = some (gate, alt, a, selects) →
    (gate.eval S E).truth S = selects → alt ≠ .invalid

/-- What the rewriting of a WHERE does, whichever branch has the load. -/
theorem moveGates_where {a b : Expr} (h : moveGates (where_ gate a b d) = some e') :
    ∃ value alt access loadGate inverted,
      gatedLoadOf value gate inverted = some (access, loadGate) ∧
      moveWhereLoad gate value alt d inverted = some e' ∧
      handed (where_ gate a b d) = some (gate, alt, access.dtype, inverted) ∧
      (value = a ∧ alt = b ∧ inverted = false ∨ value = b ∧ alt = a ∧ inverted = true) := by
  simp only [moveGates] at h
  cases hfirst : gatedLoadOf a gate false with
  | some p =>
    obtain ⟨access, loadGate⟩ := p
    simp only [moveWhereLoad, hfirst, Option.bind_eq_bind, Option.bind_some, Option.some_or] at h
    exact ⟨a, b, access, loadGate, false, hfirst, by simpa [moveWhereLoad, hfirst] using h,
      by simp [handed, hfirst], .inl ⟨rfl, rfl, rfl⟩⟩
  | none =>
    have hnone : moveWhereLoad gate a b d false = none := by simp [moveWhereLoad, hfirst]
    rw [hnone, Option.none_or] at h
    cases hsecond : gatedLoadOf b gate true with
    | none => simp [moveWhereLoad, hsecond] at h
    | some p =>
      obtain ⟨access, loadGate⟩ := p
      exact ⟨b, a, access, loadGate, true, hsecond, h, by simp [handed, hfirst, hsecond],
        .inr ⟨rfl, rfl, rfl⟩⟩

/-- A rewritten load is the load that it was. -/
theorem eval_moveGates_load (h : moveGates (load access) = some e') :
    e'.eval S E = (load access).eval S E := by
  simp only [moveGates, Option.or_eq_some_iff] at h
  rcases h with h | ⟨-, h | ⟨-, h⟩⟩
  · exact eval_moveImageLoad h
  · exact eval_moveLoadBy (fun _ _ _ => gates_moveIndex) h
  · exact eval_moveLoadBy (fun _ _ _ => gates_moveShrink) h

/-- The conditions on the alternative of a rewritten WHERE, spelled out. -/
theorem forall_handed_iff {P : Expr → Expr → ScalarDType → Bool → Prop} {selects : Bool}
    {a : ScalarDType} (h : handed e = some (gate, alt, a, selects)) :
    (∀ gate' alt' a' selects', handed e = some (gate', alt', a', selects') →
      P gate' alt' a' selects') ↔ P gate alt a selects := by
  constructor
  · exact fun hall => hall gate alt a selects h
  · intro hp gate' alt' a' selects' h'
    rw [h, Option.some.injEq, Prod.mk.injEq, Prod.mk.injEq, Prod.mk.injEq] at h'
    obtain ⟨rfl, rfl, rfl, rfl⟩ := h'
    exact hp

/-- A rewritten node keeps its value exactly if the alternative survives, and is the same
    even where it is Invalid exactly if that alternative is not the marker. -/
theorem eval_moveGates_iff (htyped : e.WellTyped) (h : moveGates e = some e') :
    (Keeps (e.eval S E) (e'.eval S E) ↔ AltSurvives S E e) ∧
      (e'.eval S E = e.eval S E ↔ AltSurvives S E e ∧ AltPresent S E e) := by
  cases e with
  | load access =>
    have heq := eval_moveGates_load (S := S) (E := E) h
    have hsurvives : AltSurvives S E (load access) := fun _ _ _ _ hh => by cases hh
    have hpresent : AltPresent S E (load access) := fun _ _ _ _ hh => by cases hh
    exact ⟨iff_of_true (fun _ => heq) hsurvives, iff_of_true heq ⟨hsurvives, hpresent⟩⟩
  | where_ gate a b d =>
    obtain ⟨ha, hb⟩ := htyped
    obtain ⟨value, alt, access, loadGate, inverted, hload, hmove, hhanded, hbranch⟩ :=
      moveGates_where h
    have hvalue : BranchTyped d value := by rcases hbranch with ⟨rfl, -⟩ | ⟨rfl, -⟩ <;> assumption
    have halt : BranchTyped d alt := by
      rcases hbranch with ⟨-, rfl, -⟩ | ⟨-, rfl, -⟩ <;> assumption
    have hold : (where_ gate a b d).eval S E =
        if ((gate.eval S E).truth S ^^ inverted) then value.eval S E else alt.eval S E := by
      rw [eval]
      rcases hbranch with ⟨rfl, rfl, rfl⟩ | ⟨rfl, rfl, rfl⟩ <;>
        cases (gate.eval S E).truth S <;> rfl
    rw [AltSurvives, AltPresent, forall_handed_iff hhanded, forall_handed_iff hhanded, hold,
      eval_moveWhereLoad hvalue halt hload hmove]
    have hsel : (gate.eval S E).truth S = inverted ↔
        ((gate.eval S E).truth S ^^ inverted) = false := by
      cases (gate.eval S E).truth S <;> cases inverted <;> simp
    rw [hsel]
    cases (gate.eval S E).truth S ^^ inverted with
    | true =>
      simp only [if_true, Bool.true_eq_false, false_implies, and_self, iff_true]
      exact ⟨fun _ => rfl, trivial⟩
    | false =>
      simp only [Bool.false_eq_true, if_false, true_implies]
      exact ⟨keeps_loadAlt_iff halt.1 halt.2, eval_loadAlt_iff halt.1 halt.2⟩
  | _ => cases h

/-! ## Kernels -/

theorem dtype_castTo (e : Expr) (d : ScalarDType) : (e.castTo d).dtype = d := by
  unfold Expr.castTo
  split
  · assumption
  · rfl

theorem dtype_moveLoadBy {move : Expr → Option (Expr × Expr)}
    (hmove : ∀ access gate clean, move access = some (gate, clean) → Gates access gate clean)
    (h : moveLoadBy move e = some e') : e'.dtype = e.dtype := by
  cases e with
  | load access =>
    simp only [moveLoadBy, bind_eq_some] at h
    obtain ⟨⟨gate, clean⟩, hm, h⟩ := h
    obtain rfl := Option.some.inj h
    exact (hmove _ _ _ hm).dtype
  | _ => cases h

theorem dtype_moveGates (h : moveGates e = some e') : e'.dtype = e.dtype := by
  cases e with
  | load access =>
    simp only [moveGates, Option.or_eq_some_iff] at h
    rcases h with h | ⟨-, h | ⟨-, h⟩⟩
    · simp only [moveImageLoad, bind_eq_some] at h
      obtain ⟨⟨gate, clean⟩, hm, h⟩ := h
      obtain rfl := Option.some.inj h
      exact dtype_castTo _ _
    · exact dtype_moveLoadBy (fun _ _ _ => gates_moveIndex) h
    · exact dtype_moveLoadBy (fun _ _ _ => gates_moveShrink) h
  | where_ gate a b d =>
    obtain ⟨value, alt, access, loadGate, inverted, hload, hmove, -⟩ := moveGates_where h
    simp only [moveWhereLoad, hload, Option.bind_eq_bind, Option.bind_some,
      Option.some.injEq] at hmove
    subst hmove
    exact dtype_castTo _ _
  | _ => cases h

/-- `new` where the node is `old`, else what its sources became. -/
def swap (old new e r : Expr) : Expr := if e = old then new else r

/-- The node with every occurrence of `old` replaced by `new`, as the rewriting of a kernel
    leaves it. -/
def replaceNode (old new : Expr) : Expr → Expr
  | leaf id d => swap old new (leaf id d) (leaf id d)
  | invalid => swap old new .invalid .invalid
  | zero d => swap old new (zero d) (zero d)
  | .not src => swap old new (.not src) (.not (replaceNode old new src))
  | .cast src d => swap old new (.cast src d) (.cast (replaceNode old new src) d)
  | where_ gate a b d => swap old new (where_ gate a b d)
    (where_ (replaceNode old new gate) (replaceNode old new a) (replaceNode old new b) d)
  | endCoords => swap old new endCoords endCoords
  | coord first rest => swap old new (coord first rest)
    (coord (replaceNode old new first) (replaceNode old new rest))
  | index buffer indices d => swap old new (index buffer indices d)
    (index buffer (replaceNode old new indices) d)
  | shrink src offsets sizes d => swap old new (shrink src offsets sizes d)
    (shrink src (replaceNode old new offsets) (replaceNode old new sizes) d)
  | load access => swap old new (load access) (load (replaceNode old new access))
  | gatedLoad access alt gate => swap old new (gatedLoad access alt gate)
    (gatedLoad (replaceNode old new access) (replaceNode old new alt) (replaceNode old new gate))

def Store.replace (s : Store) (old new : Expr) : Store :=
  ⟨replaceNode old new s.index, replaceNode old new s.value, s.gate.map (replaceNode old new)⟩

/-- A node of the same dtype and value can stand for another one anywhere. -/
theorem eval_replace {old new : Expr} (hdtype : new.dtype = old.dtype)
    (heval : new.eval S E = old.eval S E) (e : Expr) :
    (replaceNode old new e).dtype = e.dtype ∧ (replaceNode old new e).eval S E = e.eval S E := by
  have hswap : ∀ {e r : Expr}, r.dtype = e.dtype ∧ r.eval S E = e.eval S E →
      (swap old new e r).dtype = e.dtype ∧ (swap old new e r).eval S E = e.eval S E := by
    intro e r h
    unfold swap
    split
    · next heq => exact heq ▸ ⟨hdtype, heval⟩
    · exact h
  induction e with
  | leaf _ _ => exact hswap ⟨rfl, rfl⟩
  | invalid => exact hswap ⟨rfl, rfl⟩
  | zero _ => exact hswap ⟨rfl, rfl⟩
  | endCoords => exact hswap ⟨rfl, rfl⟩
  | not src ih =>
    refine hswap ⟨ih.1, ?_⟩
    rw [eval, ih.2, eval]
  | cast src d ih =>
    refine hswap ⟨rfl, ?_⟩
    rw [eval, ih.1, ih.2, eval]
  | where_ g a b d ihg iha ihb =>
    refine hswap ⟨rfl, ?_⟩
    rw [eval, ihg.2, iha.2, ihb.2, eval]
  | coord f r ihf ihr =>
    refine hswap ⟨rfl, ?_⟩
    rw [eval, ihf.2, ihr.2, eval]
  | index buf i d ih =>
    refine hswap ⟨rfl, ?_⟩
    rw [eval, ih.2, eval]
  | shrink src o z d iho ihz =>
    refine hswap ⟨rfl, ?_⟩
    rw [eval, iho.2, ihz.2, eval]
  | load a ih =>
    refine hswap ⟨ih.1, ?_⟩
    rw [eval, ih.1, ih.2, eval]
  | gatedLoad a alt g iha ihalt ihg =>
    refine hswap ⟨iha.1, ?_⟩
    rw [eval, iha.1, iha.2, ihalt.2, ihg.2, eval]

theorem effect_replace {old new : Expr} (hdtype : new.dtype = old.dtype)
    (heval : new.eval S E = old.eval S E) (s : Store) :
    (s.replace old new).effect S E = s.effect S E := by
  obtain ⟨index, value, gate⟩ := s
  have hindex := (eval_replace hdtype heval index).2
  have hvalue := (eval_replace hdtype heval value).2
  cases gate with
  | none => simp [Store.effect, Store.replace, hindex, hvalue]
  | some gate =>
    have hgate := (eval_replace hdtype heval gate).2
    simp [Store.effect, Store.replace, hindex, hvalue, hgate]

theorem effect_moveStoreGates {s s' : Store} (h : moveStoreGates s = some s') :
    s'.effect S E = s.effect S E := by
  simp only [moveStoreGates, Option.or_eq_some_iff] at h
  rcases h with h | ⟨-, h | ⟨-, h⟩⟩
  · exact effect_moveStoreBy (fun _ _ _ => gates_moveImage) h
  · exact effect_moveStoreBy (fun _ _ _ => gates_moveIndex) h
  · exact effect_moveStoreBy (fun _ _ _ => gates_moveShrink) h

/-- The rules keep the writes of stores.  A rewritten node keeps its value exactly if the
    alternative it hands to a load survives; it is the same node to every store of the kernel
    exactly if that alternative is not the Invalid marker either. -/
theorem moveGates_preserves_iff (S : Semantics α) (E : Env α) :
    (∀ s s', moveStoreGates s = some s' → s'.effect S E = s.effect S E) ∧
    (∀ e e', e.WellTyped → moveGates e = some e' →
      (Keeps (e.eval S E) (e'.eval S E) ↔ AltSurvives S E e) ∧
      (e'.eval S E = e.eval S E ↔ AltSurvives S E e ∧ AltPresent S E e) ∧
      (AltSurvives S E e → AltPresent S E e →
        ∀ s : Store, (s.replace e e').effect S E = s.effect S E)) := by
  refine ⟨fun s s' => effect_moveStoreGates, fun e e' htyped h => ?_⟩
  obtain ⟨hkeeps, heq⟩ := eval_moveGates_iff (S := S) (E := E) htyped h
  exact ⟨hkeeps, heq, fun hs hp s => effect_replace (dtype_moveGates h) (heq.mpr ⟨hs, hp⟩) s⟩

/-! ## Two alternatives that are lost -/

/-- A gated load on the gate `leaf 0`, at the coordinate `leaf 1` of the buffer 0. -/
def gatedAt (d : ScalarDType) : Expr :=
  gatedLoad (index ⟨0, false⟩ (coord (leaf 1 .int32) endCoords) d) (zero d) (leaf 0 .bool)

/-- A WHERE of 32 bits around a gated byte, padding with `leaf 2`. -/
def paddedByte : Expr := where_ (leaf 0 .bool) (.cast (gatedAt .int8) .int32) (leaf 2 .int32) .int32

/-- The gate fails, and the padding is `padding`. -/
def paddingEnv (padding : ℤ) : Env ℤ := ⟨fun id => if id = 2 then padding else 0, fun _ => 7⟩

theorem moveGates_preserves_padding :
    ∃ e', moveGates paddedByte = some e' ∧
      Keeps (paddedByte.eval machine (paddingEnv 30)) (e'.eval machine (paddingEnv 30)) := by
  have htyped : paddedByte.WellTyped := ⟨⟨trivial, .inr rfl⟩, trivial, .inr rfl⟩
  have hkeeps := ((moveGates_preserves_iff machine (paddingEnv 30)).2 paddedByte _ htyped rfl).1
  refine ⟨_, rfl, hkeeps.mpr ((forall_handed_iff rfl).mpr fun _ => .inr fun v hv => ?_)⟩
  obtain rfl : (30 : ℤ) = v := Value.scalar.inj hv
  decide

/-- The padding 300 comes back from the byte as 44. -/
theorem moveGates_changes_padding :
    ¬ ∀ (S : Semantics ℤ) (E : Env ℤ) (e e' : Expr), e.WellTyped → moveGates e = some e' →
      Keeps (e.eval S E) (e'.eval S E) := by
  intro h
  have hkeeps := h machine (paddingEnv 300) paddedByte _ ⟨⟨trivial, .inr rfl⟩, trivial, .inr rfl⟩ rfl
  exact absurd (hkeeps (by decide)) (by decide)

end Svod.Late.Gater
