/-
  Svod.Rangeify.SplitReduceSound

  A split REDUCE has the shape and the elements of the original.

  The split axis is regrouped into (divisor, remainder), and the divisor moves to
  the end: the first stage folds the same axes with the remainder in place of the
  split one, the second folds the divisor.  Both together are one fold over the
  original axes.
-/

import Svod.Rangeify.SplitReduce
import Svod.Tensor.ReduceAxes

namespace Svod.Rangeify.SplitReduce

open Svod.Lib Svod.Ir Svod.Tensor.Nd
open Svod.Symbolic.ReduceFactor (ReduceOp)

variable {α : Type} {op : α → α → α} {e : α} {checks : Bool} {config : SplitReduceOpConfig}
  {reduce : Reduce α} {u : NdArray α}

/-! ## Candidates -/

/-- The axis is reduced, and the divisor divides it. -/
structure Splits (reduce : Reduce α) (candidate : SplitCandidate) : Prop where
  reduced : candidate.dimension < reduce.numAxes
  divides : reduce.src.shape.getD candidate.dimension 0 =
    candidate.divisor * (reduce.src.shape.getD candidate.dimension 0 / candidate.divisor)

theorem candidateStep_splits {outputSize axis divisor : ℕ} {candidates next : List SplitCandidate}
    (haxis : axis < reduce.numAxes) (h : ∀ c ∈ candidates, Splits reduce c)
    (hstep : candidateStep checks config outputSize axis (reduce.src.shape.getD axis 0) candidates
      divisor = .ok next) : ∀ c ∈ next, Splits reduce c := by
  unfold candidateStep at hstep
  split at hstep
  · cases hstep
  · split at hstep
    · cases hstep
      exact h
    · rename_i hdvd
      rw [not_not] at hdvd
      simp only [bind, Except.bind] at hstep
      split at hstep
      · cases hstep
      · split at hstep
        · cases hstep
        · split at hstep
          · cases hstep
            exact h
          · cases hstep
            intro c hc
            rcases List.mem_append.mp hc with hc | hc
            · exact h c hc
            · obtain rfl := List.mem_singleton.mp hc
              exact ⟨haxis, (Nat.mul_div_cancel' (Nat.dvd_of_mod_eq_zero hdvd)).symm⟩

theorem findSplitCandidates_splits {isExpanded : List Bool} {candidates : List SplitCandidate}
    (h : findSplitCandidates checks config reduce isExpanded = .ok candidates) :
    ∀ c ∈ candidates, Splits reduce c := by
  unfold findSplitCandidates at h
  split at h
  · cases h
    intro c hc
    cases hc
  · simp only [bind, Except.bind] at h
    split at h
    · cases h
    · refine foldlM_keeps (P := fun l => ∀ c ∈ l, Splits reduce c)
        (fun acc axis acc' haxis hacc hstep => ?_)
        (fun c hc => by cases hc) h
      split at hstep
      · cases hstep
        exact hacc
      · exact foldlM_keeps (fun _ _ _ _ hprev hnext =>
          candidateStep_splits (List.mem_range.mp haxis) hprev hnext) hacc hstep

/-! ## Shapes -/

theorem flatMap_zipIdx_of_ne {k q r : ℕ} (l : List ℕ) (n : ℕ)
    (h : ∀ i, n ≤ i → i < n + l.length → i ≠ k) :
    ((l.zipIdx n).flatMap fun (dim, i) => if i = k then [q, r] else [dim]) = l := by
  induction l generalizing n with
  | nil => rfl
  | cons d l ih =>
    have hne : n ≠ k := h n le_rfl (by simp)
    have hrest := ih (n + 1) fun i hlo hhi => h i (by omega)
      (by simp only [List.length_cons]; omega)
    rw [List.zipIdx_cons, List.flatMap_cons, hrest]
    simp only [if_neg hne]
    rfl

theorem splittedShape_eq (A B : List ℕ) (d q r : ℕ) :
    splittedShape (A ++ d :: B) A.length q r = A ++ q :: r :: B := by
  rw [splittedShape, List.zipIdx_append, List.flatMap_append, List.zipIdx_cons, List.flatMap_cons,
    flatMap_zipIdx_of_ne A 0 (by omega), flatMap_zipIdx_of_ne B _ (by omega)]
  simp

/-- The permutation that moves the axis `A.length` to the end, on any list. -/
theorem map_permutation {A B : List ℕ} {x : ℕ} (c : List ℕ) (hc : c = A ++ x :: B) :
    ((List.range c.length).filter (· ≠ A.length) ++ [A.length]).map (c.getD · 0) =
      A ++ B ++ [x] := by
  have hfilter : (List.range c.length).filter (· ≠ A.length) =
      (List.range c.length).eraseIdx A.length := by
    rw [← filter_range_ne]
    refine List.filter_congr fun d _ => ?_
    simp
  have hself : (List.range c.length).map (c.getD · 0) = c :=
    List.ext_getElem (by simp) fun k _ hk => by
      rw [List.getElem_map, List.getElem_range, List.getD_eq_getElem _ _ hk]
  rw [List.map_append, hfilter, ← List.eraseIdx_map, hself]
  subst hc
  simp [List.eraseIdx_append_of_length_le]

/-! ## The two stages -/

theorem toOption_eq_some {β ε : Type} {x : Except ε β} {b : β} : x.toOption = some b ↔ x = .ok b := by
  cases x <;> simp [Except.toOption]

section

variable [Std.Commutative op] [Std.Associative op] [Std.LawfulIdentity op e]

/-- The divisor folded after the remainder is the axis folded at once. -/
theorem fold_split {A B : List ℕ} {q r : ℕ} {F : List ℕ → List ℕ → α} {G : List ℕ → α}
    (h : ∀ a x b c, InBounds a A → x < q → b < r → InBounds c B →
      F (a ++ b :: c) [x] = G (a ++ (x * r + b) :: c)) :
    (foldCoords op e [q] fun x => foldCoords op e (A ++ r :: B) fun y => F y x) =
      foldCoords op e (A ++ (q * r) :: B) G := by
  have hleft : ∀ x, (foldCoords op e (A ++ r :: B) fun y => F y x) = foldCoords op e A fun a =>
      foldCoords op e [r] fun b => foldCoords op e B fun c => F (a ++ (b ++ c)) x := fun x => by
    rw [foldCoords.append]
    exact foldCoords.congr fun a _ => foldCoords.append [r] B _
  simp only [hleft]
  rw [foldCoords.swap, foldCoords.append]
  refine foldCoords.congr fun a ha => ?_
  -- the axis regrouped into the two
  have hregroup := foldCoords.regrid op e (show [q * r].prod = ([q] ++ [r]).prod by simp)
    fun v => foldCoords op e B fun c => G (a ++ (v ++ c))
  have hright : (foldCoords op e ((q * r) :: B) fun z => G (a ++ z)) =
      foldCoords op e [q * r] fun v => foldCoords op e B fun c => G (a ++ (v ++ c)) :=
    foldCoords.append [q * r] B _
  rw [hright, ← hregroup, foldCoords.append]
  refine foldCoords.congr fun x hx => foldCoords.congr fun b hb => foldCoords.congr fun c hc => ?_
  obtain ⟨x, rfl⟩ : ∃ x', x = [x'] := List.length_eq_one_iff.mp hx.length_eq
  obtain ⟨b, rfl⟩ : ∃ b', b = [b'] := List.length_eq_one_iff.mp hb.length_eq
  have hxq : x < q := (List.forall₂_cons.mp hx).1
  have hbr : b < r := (List.forall₂_cons.mp hb).1
  rw [show unravel [q * r] (ravel ([q] ++ [r]) ([x] ++ [b])) = [x * r + b] from
    (SamePosition.merge hxq hbr).symm.unravel_eq]
  exact h a x b c ha hxq hbr hc

/-- The elements after the reshape and the permutation: the quotient is the last coordinate. -/
theorem permuted_get {src reshaped permuted : NdArray α} {A B : List ℕ} {q r : ℕ}
    (hshape : src.shape = A ++ (q * r) :: B)
    (hreshaped : Movement.tryReshape src (A ++ q :: r :: B) = .ok reshaped)
    (hpermuted : Movement.tryPermute reshaped
      ((List.range (A ++ q :: r :: B).length).filter (· ≠ A.length) ++ [A.length]) = .ok permuted) :
    permuted.shape = A ++ r :: B ++ [q] ∧
      ∀ a x b c, InBounds a A → x < q → b < r → InBounds c B →
        permuted.get (a ++ b :: c ++ [x]) = src.get (a ++ (x * r + b) :: c) := by
  obtain ⟨hagrees, -⟩ := tryReshape_agrees hreshaped
  have hlen : reshaped.shape.length = (A ++ q :: r :: B).length := by rw [hagrees.shape_eq]; rfl
  have hperm : ((List.range (A ++ q :: r :: B).length).filter (· ≠ A.length) ++ [A.length]).Perm
      (List.range reshaped.shape.length) := by
    rw [hlen]
    refine (List.perm_ext_iff_of_nodup ?_ List.nodup_range).mpr fun d => ?_
    · refine (List.nodup_range.filter _).append (List.nodup_singleton _) fun d hd hk => ?_
      simp_all
    · simp only [List.mem_append, List.mem_filter, List.mem_singleton, List.mem_range,
        decide_eq_true_eq, List.length_append, List.length_cons]
      omega
  have hpermagrees := tryPermute_agrees hperm hpermuted
  have hshape' : permuted.shape = A ++ r :: B ++ [q] := by
    rw [hpermagrees.shape_eq, NdArray.permute, hagrees.shape_eq]
    rw [show (src.reshape (A ++ q :: r :: B)).shape = A ++ q :: r :: B from rfl]
    simpa using map_permutation (A := A) (B := r :: B) (x := q) _ rfl
  refine ⟨hshape', fun a x b c ha hx hb hc => ?_⟩
  have halen : a.length = A.length := ha.length_eq
  have hin : InBounds (a ++ x :: b :: c) (A ++ q :: r :: B) := ha.append (.cons hx (.cons hb hc))
  have hcoords : ((List.range (A ++ q :: r :: B).length).filter (· ≠ A.length) ++ [A.length]).map
      ((a ++ x :: b :: c).getD · 0) = a ++ b :: c ++ [x] := by
    have hmap := map_permutation (A := a) (B := b :: c) (x := x) _ rfl
    rw [hin.length_eq, halen] at hmap
    simpa using hmap
  have hpermget := reshaped.permute_get hperm (hin.length_eq.trans hlen.symm)
  rw [hcoords] at hpermget
  have hinp : InBounds (a ++ b :: c ++ [x]) (A ++ r :: B ++ [q]) :=
    (ha.append (.cons hb hc)).append (.cons hx .nil)
  rw [hpermagrees.get_eq _ (by rw [← hpermagrees.shape_eq, hshape']; exact hinp), hpermget,
    hagrees.get_eq _ hin]
  refine src.reshape_get ?_
  rw [hshape]
  exact (SamePosition.refl ha).append
    ((SamePosition.merge hx hb).symm.append (SamePosition.refl hc))

/-- The replacement is the reduction over the original axes. -/
theorem applySplitTransformation_agrees {candidate : SplitCandidate}
    (hsplits : Splits reduce candidate)
    (h : applySplitTransformation op e reduce candidate = some u) :
    u.Agrees (reduce.src.reduceLeading op e reduce.numAxes) := by
  obtain ⟨src, ranges, m⟩ := reduce
  obtain ⟨k, q, outputSize⟩ := candidate
  have hkm : k < m := hsplits.reduced
  have hdim : src.shape.getD k 0 = q * (src.shape.getD k 0 / q) := hsplits.divides
  simp only [applySplitTransformation, bind_eq_some,
    toOption_eq_some] at h
  obtain ⟨reshaped, hreshaped, permuted, hpermuted, first, hfirst, second, hsecond, finalShape,
    hfinalShape, hfinal⟩ := h
  obtain ⟨hm, rfl⟩ : m ≤ src.shape.length ∧ src.shape.drop m = finalShape := by
    simpa [Reduce.shape] using hfinalShape
  -- the axes before the split one, those reduced after it, and those that stay
  generalize hr : src.shape.getD k 0 / q = r at *
  have hklt : k < src.shape.length := by omega
  obtain ⟨A, B₁, B₂, hA, hB, hshape⟩ : ∃ A B₁ B₂, A.length = k ∧ A.length + 1 + B₁.length = m ∧
      src.shape = A ++ (q * r) :: (B₁ ++ B₂) := by
    refine ⟨src.shape.take k, (src.shape.drop (k + 1)).take (m - (k + 1)), src.shape.drop m, ?_, ?_, ?_⟩
    · simp only [List.length_take]
      omega
    · simp only [List.length_take, List.length_drop]
      omega
    · have hdrop : src.shape.drop m = (src.shape.drop (k + 1)).drop (m - (k + 1)) := by
        rw [List.drop_drop]
        congr 1
        omega
      rw [hdrop, List.take_append_drop, ← hdim, List.getD_eq_getElem _ _ hklt,
        List.getElem_cons_drop, List.take_append_drop]
  subst hA
  rw [hshape, splittedShape_eq] at hreshaped hpermuted
  obtain ⟨hpshape, hpget⟩ := permuted_get hshape hreshaped hpermuted
  have hpshape' : permuted.shape = (A ++ r :: B₁) ++ (B₂ ++ [q]) := by simp [hpshape]
  have hmlen : m = (A ++ r :: B₁).length := by
    simp only [List.length_append, List.length_cons]
    omega
  -- the first stage keeps the divisor as its last axis, the second folds it
  have hfirst' := tryReduceAxis_leading
    (show m ≤ ((A ++ r :: B₁) ++ (B₂ ++ [q])).length by rw [hmlen]; simp)
    (hpshape' ▸ NdArray.Holds.self permuted) hfirst
  rw [hmlen, List.drop_left' rfl, List.take_left' rfl] at hfirst'
  have hlast : first.shape.length - 1 = B₂.length := by rw [hfirst'.shape_eq]; simp
  rw [hlast] at hsecond
  have hsecond' := tryReduceAxis_last hfirst' hsecond
  have hshapeSplit : src.shape = (A ++ (q * r) :: B₁) ++ B₂ := by simp [hshape]
  have hsrclen : m = (A ++ (q * r) :: B₁).length := by
    simp only [List.length_append, List.length_cons]
    omega
  have hdropB : src.shape.drop m = B₂ := by rw [hshapeSplit, hsrclen, List.drop_left' rfl]
  have htakeB : src.shape.take m = A ++ (q * r) :: B₁ := by
    rw [hshapeSplit, hsrclen, List.take_left' rfl]
  -- the last reshape changes nothing
  have hu : u.Agrees second := by
    have hagrees := (tryReshape_agrees hfinal).1
    rw [hdropB, ← hsecond'.shape_eq] at hagrees
    exact hagrees.trans ⟨rfl, fun c hc => second.reshape_get (.refl hc)⟩
  have hu' := hsecond'.of_agrees hu
  refine ⟨by rw [hu'.shape_eq, NdArray.reduceLeading_shape, hdropB], fun c hc => ?_⟩
  rw [NdArray.reduceLeading_shape] at hc
  change InBounds c (src.shape.drop m) at hc
  rw [hdropB] at hc
  rw [hu'.get_eq c hc, NdArray.reduceLeading_get hm, htakeB]
  refine fold_split (F := fun y x => permuted.get (y ++ (c ++ x)))
    (G := fun z => src.get (z ++ c)) fun a x b c₁ ha hx hb hc₁ => ?_
  have := hpget a x b (c₁ ++ c) ha hx hb (hc₁.append hc)
  simpa using this

end

/-- What a replacement comes from. -/
theorem splitReduceop_some {isExpanded : List Bool} {isOneHotSelect : Bool}
    (h : splitReduceop checks op e config isExpanded isOneHotSelect reduce = .ok (some u)) :
    reduce.numAxes ≤ reduce.src.shape.length ∧ ∃ candidate, Splits reduce candidate ∧
      applySplitTransformation op e reduce candidate = some u := by
  unfold splitReduceop at h
  split at h
  · cases h
  · split at h
    · cases h
    · rename_i hshape
      have hm : reduce.numAxes ≤ reduce.src.shape.length := by
        unfold Reduce.shape at hshape
        split at hshape
        · assumption
        · cases hshape
      refine ⟨hm, ?_⟩
      simp only [bind, Except.bind] at h
      -- the sizes, the checks on them, and the candidates
      split at h
      · cases h
      · split at h
        · cases h
        · split at h
          · cases h
          · split at h
            · cases h
            · split at h
              · cases h
              · rename_i hcandidates
                split at h
                · cases h
                · rename_i candidate _
                  exact ⟨candidate,
                    findSplitCandidates_splits hcandidates candidate List.mem_cons_self,
                    Except.ok.inj h⟩

theorem splitReduceop_agrees_of_lawful [Std.Commutative op] [Std.Associative op]
    [Std.LawfulIdentity op e] {isExpanded : List Bool} {isOneHotSelect : Bool}
    (h : splitReduceop checks op e config isExpanded isOneHotSelect reduce = .ok (some u)) :
    u.Agrees (reduce.src.reduceLeading op e reduce.numAxes) := by
  obtain ⟨-, candidate, hsplits, happly⟩ := splitReduceop_some h
  exact applySplitTransformation_agrees hsplits happly

/-! ## The operations -/

section

variable {τ : IntType} (o : ReduceOp)

instance : Std.Commutative (combine (τ := τ) o) where
  comm a b := by
    cases o with
    | add => exact add_comm a b
    | mul => exact mul_comm a b
    | max => exact max_comm a b
    | min => exact min_comm a b

instance : Std.Associative (combine (τ := τ) o) where
  assoc a b c := by
    cases o with
    | add => exact add_assoc a b c
    | mul => exact mul_assoc a b c
    | max => exact max_assoc a b c
    | min => exact min_assoc a b c

instance : Std.LawfulIdentity (combine (τ := τ) o) (identity o) where
  left_id a := by
    cases o with
    | add => exact zero_add a
    | mul => exact one_mul a
    | max => exact max_eq_right a.least_le
    | min => exact min_eq_right a.le_greatest
  right_id a := by
    cases o with
    | add => exact add_zero a
    | mul => exact mul_one a
    | max => exact max_eq_left a.least_le
    | min => exact min_eq_left a.le_greatest

end

/-- The sum of singletons lists what was summed. -/
theorem foldCoords_singleton (s : List ℕ) (g : List ℕ → List ℕ) :
    (foldCoords (· + ·) 0 s fun x => ({g x} : Multiset (List ℕ))) = ((coords s).map g : List _) := by
  unfold foldCoords
  induction coords s with
  | nil => rfl
  | cons x l ih =>
    rw [List.map_cons, List.foldr_cons, ih, List.map_cons]
    rfl

/-- A replacement has the shape and the elements of the original; on arrays of singletons, each
    output element lists every input coordinate over it exactly once. -/
theorem splitReduceop_agrees (checks : Bool) (config : SplitReduceOpConfig) (isExpanded : List Bool)
    (isOneHotSelect : Bool) :
    (∀ (τ : IntType) (o : ReduceOp) (reduce : Reduce (TypedInt τ)) (u : NdArray (TypedInt τ)),
      splitReduceop checks (combine o) (identity o) config isExpanded isOneHotSelect reduce =
        .ok (some u) →
      u.Agrees (reduce.src.reduceLeading (combine o) (identity o) reduce.numAxes)) ∧
    ∀ (s ranges : List ℕ) (numAxes : ℕ) (u : NdArray (Multiset (List ℕ))),
      splitReduceop checks (· + ·) 0 config isExpanded isOneHotSelect
        ⟨⟨s, fun c => {c}⟩, ranges, numAxes⟩ = .ok (some u) →
      u.Holds (s.drop numAxes) fun c => ((coords (s.take numAxes)).map (· ++ c) : List _) := by
  refine ⟨fun τ o reduce u h => splitReduceop_agrees_of_lawful h, fun s ranges numAxes u h => ?_⟩
  have hagrees := splitReduceop_agrees_of_lawful h
  have hm : numAxes ≤ s.length := (splitReduceop_some h).1
  refine ⟨?_, fun c hc => ?_⟩
  · rw [hagrees.shape_eq, NdArray.reduceLeading_shape]
  · rw [hagrees.get_eq c (by rwa [NdArray.reduceLeading_shape]), NdArray.reduceLeading_get hm]
    exact foldCoords_singleton _ _

theorem quarterBits_pos : 0 < 32 := by decide

/-- Four elements summed in two stages of two. -/
def quarters : Reduce (TypedInt ⟨true, 32, quarterBits_pos⟩) := ⟨⟨[4], fun c => (c.headD 0 : ℕ)⟩, [], 1⟩

theorem splitReduceop_agrees_quarters :
    ∃ u, splitReduceop true (combine .add) (identity .add) ⟨1, 22, 2, 2, true⟩ [false] false
        quarters = .ok (some u) ∧
      u.Agrees (quarters.src.reduceLeading (combine .add) (identity .add) 1) := by
  have h : (applySplitTransformation (combine .add) (identity .add) quarters ⟨0, 2, 2⟩).isSome := by
    decide +kernel
  obtain ⟨u, hu⟩ := Option.isSome_iff_exists.mp h
  have hsplit : splitReduceop true (combine .add) (identity .add) ⟨1, 22, 2, 2, true⟩ [false] false
      quarters = .ok (some u) := congrArg Except.ok hu
  exact ⟨u, hsplit, (splitReduceop_agrees true ⟨1, 22, 2, 2, true⟩ [false] false).1 _ .add
    quarters u hsplit⟩

end Svod.Rangeify.SplitReduce
