/-
  Svod.Ir.RangeEvalSound

  The interval analysis is sound on ordered expressions.

  The induction carries more than enclosure: the ends of the interval of an
  expression are constants of one kind, boolean for a boolean expression only,
  and they cover every value the expression takes in any environment and lane.
  Where constants of different kinds are compared it fails, already on an
  unsigned variable below a weak literal.
-/

import Svod.Ir.RangeEvalOps

namespace Svod.Ir

open Svod.Lib ConstValue

namespace UOp

/-- One pointer is one expression. -/
theorem eq_of_same {e e' : UOp} (h : e.same e' = true) : e = e' := by
  induction e generalizing e' with
  | const v d =>
    cases e' <;> simp [same] at h
    obtain ⟨rfl, rfl⟩ := h
    rfl
  | vconst vs d =>
    cases e' <;> simp [same] at h
    obtain ⟨rfl, rfl⟩ := h
    rfl
  | defineVar n mn mx d =>
    cases e' <;> simp [same] at h
    obtain ⟨rfl, rfl, rfl, rfl⟩ := h
    rfl
  | param s b as d =>
    cases e' <;> simp [same] at h
    obtain ⟨rfl, rfl, rfl, rfl⟩ := h
    rfl
  | range e i d ih =>
    cases e' <;> simp [same] at h
    obtain ⟨he, rfl, rfl⟩ := h
    rw [ih he]
  | special e n d ih =>
    cases e' <;> simp [same] at h
    obtain ⟨he, rfl, rfl⟩ := h
    rw [ih he]
  | bind x v d ihx ihv =>
    cases e' <;> simp [same] at h
    obtain ⟨hx, hv, rfl⟩ := h
    rw [ihx hx, ihv hv]
  | stack n s d ih =>
    cases e' <;> simp [same] at h
    obtain ⟨⟨rfl, hs⟩, rfl⟩ := h
    congr 1
    funext i
    exact ih i (hs i)
  | unary o x d ih =>
    cases e' <;> simp [same] at h
    obtain ⟨rfl, hx, rfl⟩ := h
    rw [ih hx]
  | binary o x y d ihx ihy =>
    cases e' <;> simp [same] at h
    obtain ⟨rfl, hx, hy, rfl⟩ := h
    rw [ihx hx, ihy hy]
  | where_ c x y d ihc ihx ihy =>
    cases e' <;> simp [same] at h
    obtain ⟨hc, hx, hy, rfl⟩ := h
    rw [ihc hc, ihx hx, ihy hy]
  | cast x d ih =>
    cases e' <;> simp [same] at h
    obtain ⟨hx, rfl⟩ := h
    rw [ih hx]

/-- The values an expression takes, over all environments and lanes. -/
def Values (e : UOp) (v : ℤ) : Prop := ∃ env lane, e.eval env lane = some v

end UOp

namespace RangeEval

theorem orderedValue_ne {c : ConstValue} (h : orderedValue c = true) : c ≠ .invalid := by
  rintro rfl
  cases h

/-- The invalid marker has no interval. -/
theorem computeSoundVminVmax_invalid {e : UOp} (h : e.isInvalidMarker = true) :
    computeSoundVminVmax e = none := by
  cases e with
  | const c d =>
    obtain rfl : c = .invalid := by simpa [UOp.isInvalidMarker] using h
    rfl
  | vconst cs d =>
    simp only [UOp.isInvalidMarker, ne_eq, decide_eq_true_eq, Bool.decide_and,
      Bool.and_eq_true] at h
    cases cs with
    | nil => exact absurd rfl h.1
    | cons c rest =>
      have hc : c = .invalid := h.2 c (List.mem_cons_self ..)
      have hall : (c :: rest).all orderedValue = false := by
        rw [hc]
        rfl
      show soundValuesRange (c :: rest) = none
      unfold soundValuesRange
      exact if_neg fun hr => by rw [hall] at hr; cases hr.2
  | defineVar | param | range | special | bind | stack | unary | binary | where_ | cast => cases h

/-- The boolean operands are those of boolean nodes, the invalid marker apart. -/
theorem operand_bool {e : UOp} {s : ScalarDType} (h : e.Operand s)
    (hinv : e.isInvalidMarker = false) : e.dtype.base = .bool ↔ s = .bool := by
  rcases h with (h | h) | ⟨hweak, h⟩
  · rw [h]
  · rw [hinv] at h
    cases h
  · refine iff_of_false (by rw [hweak]; decide) ?_
    rintro rfl
    cases h

/-- A literal has its own value as both ends. -/
theorem computeSoundVminVmax_const {c : ConstValue} {d : DType} {b : Bounds}
    (h : computeSoundVminVmax (.const c d) = some b) : c ≠ .invalid ∧ b = (c, c) := by
  simp only [computeSoundVminVmax, Option.ite_none_right_eq_some, Option.some.injEq] at h
  exact ⟨orderedValue_ne h.1, h.2.symm⟩

theorem const_covers {c : ConstValue} {d : DType} {s : ScalarDType} {t : IntType}
    (ht : intType s = some t) (hm : c.Machine) (hc : c.cast s = some c) {b : Bounds}
    (h : computeSoundVminVmax (.const c d) = some b) :
    Covers s b (UOp.const c d).Values := by
  obtain ⟨hne, rfl⟩ := computeSoundVminVmax_const h
  obtain ⟨v, hv⟩ := hasType_of_canonical ht hm hc hne
  apply (Covers.point hv).mono
  intro v' hv'
  obtain ⟨env, lane, heval⟩ := hv'
  exact Option.some.inj (heval.symm.trans hv.integerValue)

theorem notInvalid {e : UOp} {b : Bounds} (h : computeSoundVminVmax e = some b) :
    e.isInvalidMarker = false := by
  cases hinv : e.isInvalidMarker with
  | false => rfl
  | true =>
    rw [computeSoundVminVmax_invalid hinv] at h
    cases h

/-- The interval of an operand, at the dtype of the node. -/
theorem encloses_operand {e : UOp} {s : ScalarDType} {b : Bounds} {S : ℤ → Prop}
    (h : Encloses e.dtype.base b S) (he : e.Operand s) (hb : computeSoundVminVmax e = some b) :
    Encloses s b S :=
  ⟨h.1.trans (operand_bool he (notInvalid hb)), h.2⟩

/-! ## One case for each operation -/

section Cases

variable {b : Bounds}

theorem vconst_covers {cs : List ConstValue} {d : DType} {t : IntType}
    (ht : intType d.base = some t) (hty : (UOp.vconst cs d).NodeTyped)
    (h : computeSoundVminVmax (.vconst cs d) = some b) :
    Covers d.base b (UOp.vconst cs d).Values := by
  apply (soundValuesRange_covers ht hty h).mono
  intro v hv
  obtain ⟨env, lane, heval⟩ := hv
  simp only [UOp.eval, bind_eq_some] at heval
  obtain ⟨i, -, c, hc, hcv⟩ := heval
  exact ⟨c, List.mem_of_getElem? hc, hcv⟩

/-- A declared value is inside the bounds and the dtype. -/
theorem declared_eq_some {lo hi v w : ℤ} {d : DType} {t : IntType} (ht : intType d.base = some t)
    (h : UOp.declared lo hi d v = some w) : t.Contains w ∧ lo ≤ w ∧ w ≤ hi := by
  simp only [UOp.declared, ht, Option.bind_eq_bind, Option.bind_some,
    Option.ite_none_right_eq_some, Option.some.injEq] at h
  obtain ⟨hr, rfl⟩ := h
  exact hr

theorem defineVar_covers {n : String} {mn mx : ℤ} {d : DType} {t : IntType}
    (ht : intType d.base = some t) (hty : (UOp.defineVar n mn mx d).NodeTyped)
    (h : computeSoundVminVmax (.defineVar n mn mx d) = some b) :
    Covers d.base b (UOp.defineVar n mn mx d).Values := by
  have hz : UOp.ZeroTestable (.int mn) (.int mx) := Or.inr (Or.inl ⟨mn, mx, rfl, rfl⟩)
  apply (declared_covers hty.1 ht (fun _ => hz) h).mono
  intro v hv
  obtain ⟨env, lane, heval⟩ := hv
  obtain ⟨hvt, hle, hge⟩ := declared_eq_some ht heval
  exact ⟨mn, mx, rfl, rfl, hvt, hle, hge⟩

theorem param_covers {slot : ℕ} {bounds : Option (ConstValue × ConstValue)}
    {as : Option AddrSpace} {d : DType} {t : IntType} (ht : intType d.base = some t)
    (hty : (UOp.param slot bounds as d).NodeTyped)
    (hz : as = none → ∀ mn mx, bounds = some (mn, mx) → d.base = .bool → UOp.ZeroTestable mn mx)
    (h : computeSoundVminVmax (.param slot bounds as d) = some b) :
    Covers d.base b (UOp.param slot bounds as d).Values := by
  simp only [computeSoundVminVmax, Option.ite_none_right_eq_some, Option.bind_eq_bind,
    Option.bind_eq_some_iff] at h
  obtain ⟨has, ⟨mn, mx⟩, rfl, h⟩ := h
  apply (declared_covers hty.1 ht (hz has mn mx rfl) (Option.bind_eq_some_iff.mpr h)).mono
  intro v hv
  obtain ⟨env, lane, heval⟩ := hv
  simp only [UOp.eval, Option.bind_eq_bind, Option.bind_some, Option.bind_eq_some_iff] at heval
  obtain ⟨lo, hlo, hi, hhi, heval⟩ := heval
  obtain ⟨hvt, hle, hge⟩ := declared_eq_some ht heval
  exact ⟨lo, hi, hlo, hhi, hvt, hle, hge⟩

variable {t : IntType} {d : DType}

theorem range_covers {stop : UOp} {i : ℕ} (ht : intType d.base = some t)
    (ih : ∀ b, computeSoundVminVmax stop = some b → Encloses stop.dtype.base b stop.Values)
    (h : computeSoundVminVmax (.range stop i d) = some b) :
    Covers d.base b (UOp.range stop i d).Values := by
  simp only [computeSoundVminVmax, Option.bind_eq_bind, Option.bind_eq_some_iff,
    ifOrdered, Option.ite_none_right_eq_some, Option.some.injEq] at h
  obtain ⟨⟨lo, hi⟩, hstop, b', hb', -, rfl⟩ := h
  apply (zeroToTypedEndMinusOne_covers (ih _ hstop).2 ht hb').mono
  intro v hv
  obtain ⟨env, lane, heval⟩ := hv
  simp only [UOp.eval, Option.bind_eq_bind, Option.bind_eq_some_iff] at heval
  obtain ⟨n, hn, heval⟩ := heval
  obtain ⟨-, hle, hge⟩ := declared_eq_some ht heval
  exact ⟨n, ⟨env, lane, hn⟩, hle, hge⟩

theorem special_covers {stop : UOp} {n : String} (ht : intType d.base = some t)
    (ih : ∀ b, computeSoundVminVmax stop = some b → Encloses stop.dtype.base b stop.Values)
    (h : computeSoundVminVmax (.special stop n d) = some b) :
    Covers d.base b (UOp.special stop n d).Values := by
  simp only [computeSoundVminVmax, Option.bind_eq_bind, Option.bind_eq_some_iff,
    ifOrdered, Option.ite_none_right_eq_some, Option.some.injEq] at h
  obtain ⟨⟨lo, hi⟩, hstop, b', hb', -, rfl⟩ := h
  apply (zeroToTypedEndMinusOne_covers (ih _ hstop).2 ht hb').mono
  intro v hv
  obtain ⟨env, lane, heval⟩ := hv
  simp only [UOp.eval, Option.bind_eq_bind, Option.bind_eq_some_iff] at heval
  obtain ⟨n, hn, heval⟩ := heval
  obtain ⟨-, hle, hge⟩ := declared_eq_some ht heval
  exact ⟨n, ⟨env, lane, hn⟩, hle, hge⟩

theorem bind_encloses {var value : UOp} (hty : (UOp.bind var value d).NodeTyped)
    (ih : ∀ b, computeSoundVminVmax var = some b → Encloses var.dtype.base b var.Values)
    (h : computeSoundVminVmax (.bind var value d) = some b) :
    Encloses d.base b (UOp.bind var value d).Values := by
  have hcov := ih b h
  rw [hty.1] at hcov
  apply hcov.mono
  intro v hv
  obtain ⟨env, lane, heval⟩ := hv
  simp only [UOp.eval, bind_eq_some,
    Option.ite_none_right_eq_some, Option.some.injEq] at heval
  obtain ⟨x, hx, y, -, -, rfl⟩ := heval
  exact ⟨env, lane, hx⟩

theorem stack_encloses {n : ℕ} {s : Fin n → UOp} (hty : (UOp.stack n s d).NodeTyped)
    (ho : (UOp.stack n s d).NodeOrdered)
    (ih : ∀ i b, computeSoundVminVmax (s i) = some b → Encloses (s i).dtype.base b (s i).Values)
    (h : computeSoundVminVmax (.stack n s d) = some b) :
    Encloses d.base b (UOp.stack n s d).Values := by
  obtain ⟨hne, hnone⟩ := soundSourcesRange_isSome h
  have hsome : ∀ i, ∃ a, computeSoundVminVmax (s i) = some a := by
    intro i
    rw [← Option.ne_none_iff_exists']
    exact fun hi => hnone ((List.mem_ofFn' _ _).mpr ⟨i, hi⟩)
  choose a ha using hsome
  obtain ⟨i₀⟩ : Nonempty (Fin n) := by
    cases n with
    | zero => exact absurd rfl hne
    | succ n => exact ⟨0⟩
  -- all sources have ends of the kind of the first
  have hsources : ∀ i, Covers (a i₀).1.wide (a i) (s i).Values := by
    intro i
    rw [ho a ha i₀ i]
    exact (ih i (a i) (ha i)).2
  have hcov := soundSourcesRange_covers (s := (a i₀).1.wide) (r := b) (by
    intro b hb
    obtain ⟨i, hi⟩ := (List.mem_ofFn' _ _).mp hb
    obtain rfl : a i = b := Option.some.inj ((ha i).symm.trans hi)
    exact (hsources i).between) h
  apply (hcov.encloses (encloses_operand (ih i₀ _ (ha i₀)) (hty i₀) (ha i₀)).1).mono
  intro v hv
  obtain ⟨env, lane, heval⟩ := hv
  simp only [UOp.eval, bind_eq_some] at heval
  obtain ⟨i, -, heval⟩ := heval
  split at heval
  · next hi =>
    exact ⟨_, (List.mem_ofFn' _ _).mpr ⟨⟨i, hi⟩, ha _⟩,
      (hsources ⟨i, hi⟩).inBounds ⟨env, _, heval⟩⟩
  · cases heval

theorem unary_covers {op : UnaryOp} {x : UOp} (ht : intType d.base = some t)
    (hty : x.dtype.base = d.base) (ho : (UOp.unary op x d).NodeOrdered)
    (ih : ∀ b, computeSoundVminVmax x = some b → Encloses x.dtype.base b x.Values)
    (h : computeSoundVminVmax (.unary op x d) = some b) :
    Covers d.base b (UOp.unary op x d).Values := by
  simp only [computeSoundVminVmax, Option.bind_eq_bind, Option.bind_eq_some_iff,
    Option.some.injEq] at h
  obtain ⟨a, ha, rfl⟩ := h
  apply (computeUnaryRange_covers ht (hty ▸ ih a ha) (ho a ha)).mono
  intro v hv
  obtain ⟨env, lane, heval⟩ := hv
  simp only [UOp.eval, ht, Option.bind_eq_bind, Option.bind_eq_some_iff, Option.bind_some,
    Option.some.injEq] at heval
  obtain ⟨w, hw, rfl⟩ := heval
  exact ⟨w, ⟨env, lane, hw⟩, rfl⟩

/-- The values of a binary node. -/
theorem binary_values {op : BinaryOp} {x y : UOp} (ht : intType d.base = some t) {v : ℤ}
    (hv : (UOp.binary op x y d).Values v) :
    ∃ env lane a c, x.eval env lane = some a ∧ y.eval env lane = some c ∧
      v = t.wrap (op.apply a c) := by
  obtain ⟨env, lane, heval⟩ := hv
  simp only [UOp.eval, ht, Option.bind_eq_bind, Option.bind_eq_some_iff, Option.bind_some,
    Option.ite_none_right_eq_some, Option.some.injEq] at heval
  obtain ⟨a, ha, c, hc, -, rfl⟩ := heval
  exact ⟨env, lane, a, c, ha, hc, rfl⟩

theorem arith_encloses {op : BinaryOp} (hop : op.isComparison = false) {x y : UOp}
    (ht : intType d.base = some t) (hty : (UOp.binary op x y d).NodeTyped)
    (ho : (UOp.binary op x y d).NodeOrdered)
    (ihx : ∀ b, computeSoundVminVmax x = some b → Encloses x.dtype.base b x.Values)
    (ihy : ∀ b, computeSoundVminVmax y = some b → Encloses y.dtype.base b y.Values)
    (h : computeSoundVminVmax (.binary op x y d) = some b) :
    Encloses d.base b (UOp.binary op x y d).Values := by
  simp only [computeSoundVminVmax, bind_eq_some] at h
  obtain ⟨a, ha, c, hc, h⟩ := h
  have hbool : d.base = .bool → a.1.wide = .bool ∧ c.1.wide = .bool := by
    intro hd
    simp only [UOp.NodeTyped, UOp.BinaryTyped, hop, Bool.false_eq_true, if_false] at hty
    split at hty
    · -- shifts are integer operations
      rw [hd] at hty
      cases hty.1
    · exact ⟨(encloses_operand (ihx a ha) hty.1 ha).1.mpr hd,
        (encloses_operand (ihy c hc) hty.2 hc).1.mpr hd⟩
  have hmask : op = .and → a.1 = a.2 ∧ c.1 = c.2 ∨
      ∀ m, 0 ≤ m → c = (.int m, .int m) → d.base.isUnsigned ∨ Within c d.base := by
    rintro rfl
    rcases ho a c ha hc with ⟨h₁, h₂⟩ | hin
    · exact Or.inl ⟨h₁, h₂⟩
    · exact Or.inr hin
  apply (soundBinaryRange_encloses hop ht hbool (ihx a ha).2 (ihy c hc).2 hmask h).mono
  intro v hv
  obtain ⟨env, lane, p, q, hp, hq, rfl⟩ := binary_values ht hv
  exact ⟨p, q, ⟨env, lane, hp⟩, ⟨env, lane, hq⟩, rfl⟩

/-- A comparison is not reduced. -/
theorem wrap_comparison {op : BinaryOp} (hop : op.isComparison = true)
    (ht : intType .bool = some t) (p q : ℤ) : t.wrap (op.apply p q) = op.apply p q := by
  obtain rfl : _ = t := Option.some.inj ht
  obtain ⟨r, hr⟩ := apply_comparison hop p q
  rw [hr]
  cases r <;> rfl

theorem comparison_covers {op : BinaryOp} (hop : op.isComparison = true) {x y : UOp}
    (ht : intType d.base = some t) (hty : (UOp.binary op x y d).NodeTyped)
    (ho : (UOp.binary op x y d).NodeOrdered)
    (ihx : ∀ b, computeSoundVminVmax x = some b → Encloses x.dtype.base b x.Values)
    (ihy : ∀ b, computeSoundVminVmax y = some b → Encloses y.dtype.base b y.Values)
    (h : computeSoundVminVmax (.binary op x y d) = some b) :
    Covers d.base b (UOp.binary op x y d).Values := by
  simp only [computeSoundVminVmax, bind_eq_some] at h
  obtain ⟨a, ha, c, hc, h⟩ := h
  have hd : d.base = .bool := by
    simp only [UOp.NodeTyped, UOp.BinaryTyped, hop, if_true] at hty
    exact hty.1
  have hkind : op = .eq ∨ op = .ne ∨ sameKind a.1.wide c.1.wide ∨ a.1 = a.2 ∧ c.1 = c.2 ∨
      x.same y = true := by
    have hcases : x.same y = true ∨ a.1.wide = c.1.wide →
        sameKind a.1.wide c.1.wide ∨ a.1 = a.2 ∧ c.1 = c.2 ∨ x.same y = true := by
      rintro (hsame | hk)
      · exact Or.inr (Or.inr hsame)
      · exact Or.inl (hk ▸ sameKind_refl _)
    rcases ho a c ha hc with ⟨h₁, h₂⟩ | ho
    · exact Or.inr (Or.inr (Or.inr (Or.inl ⟨h₁, h₂⟩)))
    · cases op with
      | eq => exact Or.inl rfl
      | ne => exact Or.inr (Or.inl rfl)
      | lt | le | gt | ge => exact Or.inr (Or.inr (hcases ho))
      | add | sub | mul | max | floorDiv | cdiv | floorMod | cmod | shl | shr | and | or =>
        cases hop
  have hcov := soundBinaryRange_comparison hop hd hkind (ihx a ha).2 (ihy c hc).2
    (R := fun p q => ∃ env lane, x.eval env lane = some p ∧ y.eval env lane = some q)
    (fun p q ⟨env, lane, hp, hq⟩ => ⟨⟨env, lane, hp⟩, ⟨env, lane, hq⟩⟩)
    (fun hsame p q ⟨env, lane, hp, hq⟩ => by
      rw [UOp.eq_of_same hsame] at hp
      exact Option.some.inj (hp.symm.trans hq)) h
  rw [hd] at ht ⊢
  apply hcov.mono
  intro v hv
  obtain ⟨env, lane, p, q, hp, hq, rfl⟩ := binary_values (hd ▸ ht) hv
  exact ⟨p, q, ⟨env, lane, hp, hq⟩, wrap_comparison hop ht p q⟩

theorem where_encloses {c x y : UOp} (ht : intType d.base = some t)
    (hty : (UOp.where_ c x y d).NodeTyped) (ho : (UOp.where_ c x y d).NodeOrdered)
    (ihc : ∀ b, computeSoundVminVmax c = some b → Encloses c.dtype.base b c.Values)
    (ihx : ∀ b, computeSoundVminVmax x = some b → Encloses x.dtype.base b x.Values)
    (ihy : ∀ b, computeSoundVminVmax y = some b → Encloses y.dtype.base b y.Values)
    (h : computeSoundVminVmax (.where_ c x y d) = some b) :
    Encloses d.base b (UOp.where_ c x y d).Values := by
  simp only [computeSoundVminVmax, Option.bind_eq_bind, Option.bind_eq_some_iff] at h
  obtain ⟨bc, hbc, bx, hbx, byy, hby, h⟩ := h
  have hcov : Covers .bool bc c.Values := by
    have hcond := ihc bc hbc
    rw [← hcond.1.mpr hty.1]
    exact hcond.2
  have hwhere := soundWhereRange_encloses ht hcov (encloses_operand (ihx bx hbx) hty.2.1 hbx)
    (encloses_operand (ihy byy hby) hty.2.2 hby) (ho bc bx byy hbc hbx hby) h
  apply hwhere.mono
  intro v hv
  obtain ⟨env, lane, heval⟩ := hv
  simp only [UOp.eval, ht, Option.bind_eq_bind, Option.bind_eq_some_iff, Option.bind_some] at heval
  obtain ⟨k, hk, heval⟩ := heval
  split at heval
  · next hne =>
    obtain ⟨w, hw, heval⟩ := Option.bind_eq_some_iff.mp heval
    exact ⟨w, (Option.some.inj heval).symm, Or.inl ⟨⟨k, ⟨env, lane, hk⟩, hne⟩, env, lane, hw⟩⟩
  · next hz =>
    obtain rfl : k = 0 := not_not.mp hz
    obtain ⟨w, hw, heval⟩ := Option.bind_eq_some_iff.mp heval
    exact ⟨w, (Option.some.inj heval).symm, Or.inr ⟨⟨env, lane, hk⟩, env, lane, hw⟩⟩

theorem cast_covers {x : UOp} (ht : intType d.base = some t)
    (ho : (UOp.cast x d).NodeOrdered)
    (ih : ∀ b, computeSoundVminVmax x = some b → Encloses x.dtype.base b x.Values)
    (h : computeSoundVminVmax (.cast x d) = some b) :
    Covers d.base b (UOp.cast x d).Values := by
  simp only [computeSoundVminVmax, Option.bind_eq_bind, Option.bind_eq_some_iff] at h
  obtain ⟨a, ha, h⟩ := h
  have hbool : a.1.wide = .bool → d.base = .bool → a.1 = a.2 := fun hx hd =>
    ho a ha ((ih a ha).1.mp hx) hd
  apply (soundCastRange_covers ht (ih a ha).2 hbool h).mono
  intro v hv
  obtain ⟨env, lane, heval⟩ := hv
  simp only [UOp.eval, ht, Option.bind_eq_bind, Option.bind_eq_some_iff, Option.bind_some,
    Option.some.injEq] at heval
  obtain ⟨w, hw, rfl⟩ := heval
  exact ⟨w, ⟨env, lane, hw⟩, rfl⟩

end Cases

theorem wellTyped_intType {e : UOp} (h : e.WellTyped) : ∃ t, intType e.dtype.base = some t :=
  Option.isSome_iff_exists.mp h.here.1

/-- The interval of an ordered expression has ends of one kind and covers its values. -/
theorem computeSoundVminVmax_encloses {e : UOp} (hty : e.WellTyped) (ho : e.Ordered) {b : Bounds}
    (h : computeSoundVminVmax e = some b) : Encloses e.dtype.base b e.Values := by
  induction e generalizing b with
  | const c d =>
    obtain ⟨t, ht⟩ := wellTyped_intType hty
    exact (const_covers ht hty.here.2.1 hty.here.2.2 h).encloses Iff.rfl
  | vconst cs d =>
    obtain ⟨t, ht⟩ := wellTyped_intType hty
    exact (vconst_covers ht hty.here.2 h).encloses Iff.rfl
  | defineVar n mn mx d =>
    obtain ⟨t, ht⟩ := wellTyped_intType hty
    exact (defineVar_covers ht hty.here.2 h).encloses Iff.rfl
  | param s bounds as d =>
    obtain ⟨t, ht⟩ := wellTyped_intType hty
    refine (param_covers ht hty.here.2 ?_ h).encloses Iff.rfl
    rintro has mn mx rfl
    exact ho has
  | range stop i d ih =>
    obtain ⟨t, ht⟩ := wellTyped_intType hty
    exact (range_covers ht (fun b hb => ih hty.2 ho.2 hb) h).encloses Iff.rfl
  | special stop n d ih =>
    obtain ⟨t, ht⟩ := wellTyped_intType hty
    exact (special_covers ht (fun b hb => ih hty.2 ho.2 hb) h).encloses Iff.rfl
  | bind x v d ihx ihv => exact bind_encloses hty.here.2 (fun b hb => ihx hty.2.1 ho.2.1 hb) h
  | stack n s d ih =>
    exact stack_encloses hty.here.2 ho.1 (fun i b hb => ih i (hty.2 i) (ho.2 i) hb) h
  | unary op x d ih =>
    obtain ⟨t, ht⟩ := wellTyped_intType hty
    exact (unary_covers ht hty.here.2 ho.1 (fun b hb => ih hty.2 ho.2 hb) h).encloses Iff.rfl
  | binary op x y d ihx ihy =>
    obtain ⟨t, ht⟩ := wellTyped_intType hty
    have ihx' := fun b hb => @ihx hty.2.1 ho.2.1 b hb
    have ihy' := fun b hb => @ihy hty.2.2 ho.2.2 b hb
    cases hop : op.isComparison with
    | true => exact (comparison_covers hop ht hty.here.2 ho.1 ihx' ihy' h).encloses Iff.rfl
    | false => exact arith_encloses hop ht hty.here.2 ho.1 ihx' ihy' h
  | where_ c x y d ihc ihx ihy =>
    obtain ⟨t, ht⟩ := wellTyped_intType hty
    exact where_encloses ht hty.here.2 ho.1 (fun b hb => ihc hty.2.1 ho.2.1 hb)
      (fun b hb => ihx hty.2.2.1 ho.2.2.1 hb) (fun b hb => ihy hty.2.2.2 ho.2.2.2 hb) h
  | cast x d ih =>
    obtain ⟨t, ht⟩ := wellTyped_intType hty
    exact (cast_covers ht ho.1 (fun b hb => ih hty.2 ho.2 hb) h).encloses Iff.rfl

/-- **The analysis is sound on ordered expressions**: whatever a well-typed expression evaluates
    to, for every assignment of its leaves and in every lane, lies in the interval. -/
theorem computeSoundVminVmax_sound {e : UOp} (hty : e.WellTyped) (ho : e.Ordered) : Sound e := by
  intro env lane b v hb hv
  exact (computeSoundVminVmax_encloses hty ho hb).2.inBounds ⟨env, lane, hv⟩

/-- `n + 3` on `uint32`, for `n` in `0..=10`. -/
def shiftedVar : UOp :=
  .binary .add (.defineVar "n" 0 10 (.scalar .uint32)) (.const (.uint 3) (.scalar .uint32))
    (.scalar .uint32)

theorem computeSoundVminVmax_sound_shiftedVar :
    computeSoundVminVmax shiftedVar = some (.uint 3, .uint 13) ∧
      shiftedVar.eval (fun _ => 4) [] = some 7 ∧ Sound shiftedVar := by
  refine ⟨by decide, by decide, computeSoundVminVmax_sound ?_ ?_⟩
  · refine ⟨⟨rfl, Or.inl (Or.inl rfl), Or.inl (Or.inl rfl)⟩, ⟨rfl, ?_⟩, ⟨rfl, ?_⟩⟩
    · exact ⟨⟨by decide, by decide⟩, ⟨by decide, by decide⟩⟩
    · exact ⟨⟨by decide, by decide⟩, by decide⟩
  · exact ⟨fun _ _ _ _ => Or.inr trivial, trivial, trivial⟩

/-! ## Where the order fails -/

/-- `n < 3` for a `uint32` variable in `0..=10` and a weak literal, as `try_cmplt` builds it. -/
def weakBound : UOp :=
  .binary .lt (.defineVar "n" 0 10 (.scalar .uint32)) (.const (.int 3) (.scalar .weakInt))
    (.scalar .bool)

/-- The analysis takes `n < 3` to be false, and `2 < 3` is true. -/
theorem weakBound_not_sound : weakBound.WellTyped ∧ ¬ Sound weakBound := by
  refine ⟨⟨⟨rfl, rfl, Or.inr (Or.inr (Or.inr rfl))⟩, ⟨rfl, ?_⟩, ⟨rfl, ?_⟩⟩, ?_⟩
  · exact ⟨⟨by decide, by decide⟩, ⟨by decide, by decide⟩⟩
  · exact ⟨⟨by decide, by decide⟩, by decide⟩
  · intro h
    have hbounds : computeSoundVminVmax weakBound = some (.bool false, .bool false) := by decide
    have hvalue : weakBound.eval (fun _ => 2) [] = some 1 := by decide
    obtain ⟨lo, hi, -, hhi, -, hle⟩ := h (fun _ => 2) [] _ 1 hbounds hvalue
    obtain rfl : 0 = hi := Option.some.inj hhi
    omega

/-- An undecided selection between a `uint32` variable and a weak literal has the bounds of the
    literal. -/
example :
    let e := UOp.where_ (.defineVar "b" 0 1 (.scalar .bool))
      (.defineVar "n" 0 10 (.scalar .uint32)) (.const (.int 3) (.scalar .weakInt))
      (.scalar .uint32)
    computeSoundVminVmax e = some (.int 3, .int 3) ∧ e.eval (fun _ => 1) [] = some 1 := by
  decide

/-- An undecided boolean cast to `bool` is taken to be true. -/
example :
    let e := UOp.cast (.defineVar "b" 0 1 (.scalar .bool)) (.scalar .bool)
    computeSoundVminVmax e = some (.bool true, .bool true) ∧
      e.eval (fun _ => 0) [] = some 0 := by
  decide

end RangeEval

end Svod.Ir
