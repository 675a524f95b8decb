/-
  Svod.Arch.TextSpansSound

  Windows that agree on their tokens give the tokens of the whole text, so the
  entities of a document are those of the text grouped at once; a token with a
  label is in one entity, and the entities are in the order of the text.

  `groupStep_cases` says what one token can do; the groups behind the entities
  follow from it by induction on the tokens.
-/

import Svod.Arch.TextSpans
import Svod.Lib.Intervals
import Svod.Lib.SortedKeys

namespace Svod.Arch.Text

variable {S : Type} [LinearOrder S]

/-! ## Without confidences -/

def TokenLabel.unscored (t : TokenLabel S) : TokenLabel Unit :=
  ⟨t.labelId, t.label, t.start, t.stop, t.tokenIndex, ()⟩

def Entity.unscored (e : Entity S) : Entity Unit :=
  ⟨e.label, e.labelId, e.start, e.stop, e.tokenRange, ()⟩

omit [LinearOrder S] in
theorem TokenLabel.eq_of_unscored {a b : TokenLabel S} (h : a.unscored = b.unscored)
    (hscore : a.score = b.score) : a = b := by
  cases a
  cases b
  simp only [TokenLabel.unscored, TokenLabel.mk.injEq] at h
  simp only at hscore
  obtain ⟨rfl, rfl, rfl, rfl, rfl, -⟩ := h
  rw [hscore]

theorem groupStep_unscored (scheme : Scheme) (s : List (Entity S) × Option (Entity S))
    (t : TokenLabel S) :
    groupStep scheme (s.1.map Entity.unscored, s.2.map Entity.unscored) t.unscored =
      ((groupStep scheme s t).1.map Entity.unscored,
        (groupStep scheme s t).2.map Entity.unscored) := by
  have htype : typeOf scheme t.unscored = typeOf scheme t := rfl
  have hlabel : t.unscored.label = t.label := rfl
  have hsingle : ∀ label, single t.unscored label = (single t label).unscored := fun _ => rfl
  have hextend : ∀ span : Entity S,
      extendSpan span.unscored t.unscored = (extendSpan span t).unscored := fun _ => rfl
  have hclosed : (s.2.map Entity.unscored).toList = s.2.toList.map Entity.unscored := by
    cases s.2 with
    | none => rfl
    | some span => rfl
  have hcontinued : (s.2.map Entity.unscored).filter (fun e => e.label = typeOf scheme t) =
      (s.2.filter fun e => e.label = typeOf scheme t).map Entity.unscored := by
    cases s.2 with
    | none => rfl
    | some span =>
      simp only [Option.map_some, Option.filter_some, Entity.unscored]
      split <;> rfl
  simp only [groupStep, htype, hlabel, hclosed, hcontinued]
  cases s.2.filter fun e => e.label = typeOf scheme t with
  | none => cases (parseTag t.label scheme).1 <;> simp [hsingle]
  | some span => cases (parseTag t.label scheme).1 <;> simp [hsingle, hextend]

/-- No confidence decides an entity. -/
theorem groupSpans_unscored (tokens : List (TokenLabel S)) (scheme : Scheme) :
    groupSpans (tokens.map TokenLabel.unscored) scheme =
      (groupSpans tokens scheme).map Entity.unscored := by
  have hfold : ∀ s : List (Entity S) × Option (Entity S),
      (tokens.map TokenLabel.unscored).foldl (groupStep scheme)
          (s.1.map Entity.unscored, s.2.map Entity.unscored) =
        ((tokens.foldl (groupStep scheme) s).1.map Entity.unscored,
          (tokens.foldl (groupStep scheme) s).2.map Entity.unscored) := by
    induction tokens with
    | nil => exact fun s => rfl
    | cons t tokens ih =>
      intro s
      rw [List.map_cons, List.foldl_cons, List.foldl_cons, groupStep_unscored, ih]
  rw [groupSpans, groupSpans]
  by_cases hscheme : scheme = .flat
  · rw [if_pos hscheme, if_pos hscheme, List.map_map, List.map_map]
    rfl
  · have hstart := hfold ([], none)
    rw [List.map_nil, Option.map_none] at hstart
    simp only [if_neg hscheme, hstart, List.map_append]
    cases (tokens.foldl (groupStep scheme) ([], none)).2 with
    | none => rfl
    | some span => rfl

/-! ## The tokens of all windows -/

/-- Windows that cover a text and agree on its tokens, but for the confidences. -/
structure Windows (perChunk : List (List (TokenLabel S))) (whole : List (TokenLabel S)) : Prop where
  sorted : whole.Pairwise fun a b => a.tokenIndex < b.tokenIndex
  agrees : ∀ t ∈ perChunk.flatten, ∃ w ∈ whole, t.unscored = w.unscored
  covers : ∀ w ∈ whole, ∃ t ∈ perChunk.flatten, t.unscored = w.unscored

/-- The text has in each token the confidence of the window that is surest of it. -/
def Surest (perChunk : List (List (TokenLabel S))) (whole : List (TokenLabel S)) : Prop :=
  ∀ w ∈ whole, w ∈ perChunk.flatten ∧
    ∀ t ∈ perChunk.flatten, t.tokenIndex = w.tokenIndex → t.score ≤ w.score

variable {perChunk : List (List (TokenLabel S))} {whole : List (TokenLabel S)}

theorem pairwise_sorted_tokens (tokens : List (TokenLabel S)) :
    (tokens.insertionSort tokenLe).Pairwise tokenLe := by
  have : Std.Total (tokenLe (S := S)) := ⟨fun a b => by
    rcases lt_trichotomy a.tokenIndex b.tokenIndex with hlt | heq | hgt
    · exact .inl (.inl hlt)
    · exact (le_total b.score a.score).imp (fun h => .inr ⟨heq, h⟩) fun h => .inr ⟨heq.symm, h⟩
    · exact .inr (.inl hgt)⟩
  have : IsTrans (TokenLabel S) tokenLe := ⟨fun a b c hab hbc => by
    rcases hab with hab | ⟨hab, hscore⟩
    · rcases hbc with hbc | ⟨hbc, -⟩
      · exact .inl (hab.trans hbc)
      · exact .inl (hbc ▸ hab)
    · rcases hbc with hbc | ⟨hbc, hscore'⟩
      · exact .inl (hab ▸ hbc)
      · exact .inr ⟨hab.trans hbc, hscore'.trans hscore⟩⟩
  exact List.pairwise_insertionSort _ _

omit [LinearOrder S] in
theorem eq_of_tokenIndex {tokens : List (TokenLabel S)}
    (h : tokens.Pairwise fun a b => a.tokenIndex < b.tokenIndex) {a b : TokenLabel S}
    (ha : a ∈ tokens) (hb : b ∈ tokens) (heq : a.tokenIndex = b.tokenIndex) : a = b :=
  List.inj_on_of_nodup_map (List.pairwise_map.mpr (h.imp fun hlt => ne_of_lt hlt)) ha hb heq

theorem mergeWindows_sorted (perChunk : List (List (TokenLabel S))) :
    (mergeWindows perChunk).Pairwise fun a b => a.tokenIndex < b.tokenIndex :=
  SortedKeys.pairwise_destutter _ ((pairwise_sorted_tokens perChunk.flatten).imp
    fun hab => hab.elim le_of_lt fun hab => hab.1.le)

theorem mem_of_mem_mergeWindows {t : TokenLabel S} (h : t ∈ mergeWindows perChunk) :
    t ∈ perChunk.flatten :=
  (List.mem_insertionSort _).mp ((List.destutter_sublist ..).subset h)

/-- Of the tokens of one index, the merge keeps one that is as sure as any. -/
theorem exists_mem_mergeWindows {t : TokenLabel S} (h : t ∈ perChunk.flatten) :
    ∃ x ∈ mergeWindows perChunk, x.tokenIndex = t.tokenIndex ∧ t.score ≤ x.score := by
  obtain ⟨x, hx, hkey, hor⟩ := SortedKeys.exists_mem_destutter TokenLabel.tokenIndex
    (pairwise_sorted_tokens perChunk.flatten) ((List.mem_insertionSort _).mpr h)
  refine ⟨x, hx, hkey, ?_⟩
  rcases hor with rfl | hlt | ⟨-, hbest⟩
  · exact le_refl _
  · exact absurd hkey (ne_of_lt hlt)
  · exact hbest

omit [LinearOrder S] in
theorem tokenIndex_eq_of_unscored {a b : TokenLabel S} (h : a.unscored = b.unscored) :
    a.tokenIndex = b.tokenIndex := congrArg (fun t : TokenLabel Unit => t.tokenIndex) h

omit [LinearOrder S] in
/-- A token of a window, of the index of a token of the text, is that token. -/
theorem Windows.unscored_eq (h : Windows perChunk whole) {x w : TokenLabel S}
    (hx : x ∈ perChunk.flatten) (hw : w ∈ whole) (hindex : x.tokenIndex = w.tokenIndex) :
    x.unscored = w.unscored := by
  obtain ⟨w', hw', heq⟩ := h.agrees x hx
  have hsame : w'.tokenIndex = w.tokenIndex := (tokenIndex_eq_of_unscored heq).symm.trans hindex
  rw [heq, eq_of_tokenIndex h.sorted hw' hw hsame]

/-- The windows merge to the tokens of the text. -/
theorem Windows.map_unscored (h : Windows perChunk whole) :
    (mergeWindows perChunk).map TokenLabel.unscored = whole.map TokenLabel.unscored := by
  have hmerged : ((mergeWindows perChunk).map TokenLabel.unscored).Pairwise
      fun a b => a.tokenIndex < b.tokenIndex := List.pairwise_map.mpr (mergeWindows_sorted perChunk)
  have hwhole : (whole.map TokenLabel.unscored).Pairwise fun a b => a.tokenIndex < b.tokenIndex :=
    List.pairwise_map.mpr h.sorted
  refine hmerged.eq_of_mem_iff hwhole fun u => ⟨fun hu => ?_, fun hu => ?_⟩
  · obtain ⟨t, ht, rfl⟩ := List.mem_map.mp hu
    obtain ⟨w, hw, heq⟩ := h.agrees t (mem_of_mem_mergeWindows ht)
    exact heq ▸ List.mem_map_of_mem hw
  · obtain ⟨w, hw, rfl⟩ := List.mem_map.mp hu
    obtain ⟨t, ht, heq⟩ := h.covers w hw
    obtain ⟨x, hx, hindex, -⟩ := exists_mem_mergeWindows ht
    rw [← h.unscored_eq (mem_of_mem_mergeWindows hx) hw
      (hindex.trans (tokenIndex_eq_of_unscored heq))]
    exact List.mem_map_of_mem hx

/-- With the confidences of the surest windows they merge to the text itself. -/
theorem Windows.mergeWindows_eq (h : Windows perChunk whole) (hsurest : Surest perChunk whole) :
    mergeWindows perChunk = whole := by
  have hwhole : ∀ w ∈ whole, w ∈ mergeWindows perChunk := by
    intro w hw
    obtain ⟨hin, hbest⟩ := hsurest w hw
    obtain ⟨x, hx, hindex, hscore⟩ := exists_mem_mergeWindows hin
    have hflat := mem_of_mem_mergeWindows hx
    have heq := TokenLabel.eq_of_unscored (h.unscored_eq hflat hw hindex)
      (le_antisymm (hbest x hflat hindex) hscore)
    exact heq ▸ hx
  refine (mergeWindows_sorted perChunk).eq_of_mem_iff h.sorted fun t => ⟨fun ht => ?_, hwhole t⟩
  obtain ⟨w, hw, heq⟩ := h.agrees t (mem_of_mem_mergeWindows ht)
  exact eq_of_tokenIndex (mergeWindows_sorted perChunk) (hwhole w hw) ht
    (tokenIndex_eq_of_unscored heq).symm ▸ hw

/-! ## What one token can do -/

/-- A token of no entity. -/
def Outside (scheme : Scheme) (t : TokenLabel S) : Prop :=
  scheme ≠ .flat ∧ (parseTag t.label scheme).1 = .o

instance (scheme : Scheme) (t : TokenLabel S) : Decidable (Outside scheme t) :=
  inferInstanceAs (Decidable (_ ∧ _))

/-- A token closes the open span, starts one, is one of its own, continues the open one or ends
    it. -/
theorem groupStep_cases (scheme : Scheme) (hscheme : scheme ≠ .flat)
    (s : List (Entity S) × Option (Entity S)) (t : TokenLabel S) :
    Outside scheme t ∧ groupStep scheme s t = (s.1 ++ s.2.toList, none) ∨
    ¬ Outside scheme t ∧ (
      groupStep scheme s t = (s.1 ++ s.2.toList, some (single t (typeOf scheme t))) ∨
      groupStep scheme s t = (s.1 ++ s.2.toList ++ [single t (typeOf scheme t)], none) ∨
      ∃ span, s.2 = some span ∧
        (groupStep scheme s t = (s.1, some (extendSpan span t)) ∨
          groupStep scheme s t = (s.1 ++ [extendSpan span t], none))) := by
  have hspan : ∀ span, s.2.filter (fun e => e.label = typeOf scheme t) = some span →
      s.2 = some span := fun span h => (Option.filter_eq_some_iff.mp h).1
  simp only [Outside, groupStep]
  cases hprefix : (parseTag t.label scheme).1 with
  | o => exact .inl ⟨⟨hscheme, rfl⟩, rfl⟩
  | b => exact .inr ⟨by simp, .inl rfl⟩
  | u | s => exact .inr ⟨by simp, .inr (.inl rfl)⟩
  | i =>
    cases hopen : s.2.filter fun e => e.label = typeOf scheme t with
    | none => exact .inr ⟨by simp, .inl rfl⟩
    | some span => exact .inr ⟨by simp, .inr (.inr ⟨span, hspan span hopen, .inl rfl⟩)⟩
  | l | e =>
    cases hopen : s.2.filter fun e => e.label = typeOf scheme t with
    | none => exact .inr ⟨by simp, .inr (.inl rfl)⟩
    | some span => exact .inr ⟨by simp, .inr (.inr ⟨span, hspan span hopen, .inr rfl⟩)⟩

/-! ## The groups behind the entities -/

/-- The tokens of a group: its first and the rest. -/
def members (g : TokenLabel S × List (TokenLabel S)) : List (TokenLabel S) := g.1 :: g.2

/-- The entity of a group of tokens. -/
def entityOf (scheme : Scheme) (g : TokenLabel S × List (TokenLabel S)) : Entity S :=
  g.2.foldl extendSpan (single g.1 (if scheme = .flat then g.1.label else typeOf scheme g.1))

/-- Entities that are neighbouring tokens each, of all tokens that are not outside, in their
    order. -/
def Grouped (scheme : Scheme) (tokens : List (TokenLabel S)) (entities : List (Entity S)) : Prop :=
  ∃ groups : List (TokenLabel S × List (TokenLabel S)), entities = groups.map (entityOf scheme) ∧
    groups.flatMap members = tokens.filter (fun t => ¬ Outside scheme t) ∧
    ∀ g ∈ groups, members g <:+: tokens

/-- The state of the loop after `tokens`; the open group ends where the tokens do. -/
structure Opened (scheme : Scheme) (tokens : List (TokenLabel S))
    (s : List (Entity S) × Option (Entity S)) (groups : List (TokenLabel S × List (TokenLabel S)))
    (cur : Option (TokenLabel S × List (TokenLabel S))) : Prop where
  entities : s.1 = groups.map (entityOf scheme)
  opened : s.2 = cur.map (entityOf scheme)
  flat : (groups ++ cur.toList).flatMap members =
    tokens.filter fun t => ¬ Outside scheme t
  infixes : ∀ g ∈ groups, members g <:+: tokens
  suffixes : ∀ g ∈ cur, members g <:+ tokens

variable {scheme : Scheme} {tokens : List (TokenLabel S)}
  {s s' : List (Entity S) × Option (Entity S)}
  {groups : List (TokenLabel S × List (TokenLabel S))}
  {cur : Option (TokenLabel S × List (TokenLabel S))}

theorem entityOf_concat (g : TokenLabel S × List (TokenLabel S)) (t : TokenLabel S) :
    entityOf scheme (g.1, g.2 ++ [t]) = extendSpan (entityOf scheme g) t := by
  rw [entityOf, List.foldl_append]
  rfl

theorem entityOf_single (hscheme : scheme ≠ .flat) (t : TokenLabel S) :
    entityOf scheme (t, []) = single t (typeOf scheme t) := by
  rw [entityOf, if_neg hscheme]
  rfl

/-- The entities of all groups, the open one last. -/
theorem Opened.closed (h : Opened scheme tokens s groups cur) :
    s.1 ++ s.2.toList = (groups ++ cur.toList).map (entityOf scheme) := by
  rw [h.entities, h.opened, List.map_append]
  cases cur with
  | none => rfl
  | some g => rfl

/-- Every group is among the tokens. -/
theorem Opened.all_infixes (h : Opened scheme tokens s groups cur) :
    ∀ g ∈ groups ++ cur.toList, members g <:+: tokens := by
  intro g hg
  rcases List.mem_append.mp hg with hg | hg
  · exact h.infixes g hg
  · exact (h.suffixes g (Option.mem_toList.mp hg)).isInfix

omit [LinearOrder S] in
theorem infixes_concat {gs : List (TokenLabel S × List (TokenLabel S))} (t : TokenLabel S)
    (h : ∀ g ∈ gs, members g <:+: tokens) : ∀ g ∈ gs, members g <:+: tokens ++ [t] :=
  fun g hg => (h g hg).trans (List.prefix_append tokens [t]).isInfix

/-- The open group with one more token. -/
theorem Opened.extended (h : Opened scheme tokens s groups cur) {span : Entity S}
    (hspan : s.2 = some span) (t : TokenLabel S) :
    ∃ g, cur = some g ∧ extendSpan span t = entityOf scheme (g.1, g.2 ++ [t]) ∧
      members (g.1, g.2 ++ [t]) <:+ tokens ++ [t] := by
  rw [h.opened] at hspan
  obtain ⟨g, hg, rfl⟩ := Option.map_eq_some_iff.mp hspan
  obtain ⟨before, hbefore⟩ := h.suffixes g hg
  refine ⟨g, hg, (entityOf_concat g t).symm, before, ?_⟩
  rw [← hbefore, members, members, List.append_assoc, List.cons_append]

theorem Opened.step (hscheme : scheme ≠ .flat) (h : Opened scheme tokens s groups cur)
    (t : TokenLabel S) :
    ∃ groups' cur', Opened scheme (tokens ++ [t]) (groupStep scheme s t) groups' cur' := by
  have hall := infixes_concat t h.all_infixes
  have hsuffix : members (t, []) <:+ tokens ++ [t] := List.suffix_append tokens [t]
  have hflat : ∀ ext : List (TokenLabel S), (∀ x ∈ ext, ¬ Outside scheme x) →
      (groups ++ cur.toList).flatMap members ++ ext =
        (tokens ++ ext).filter fun x => ¬ Outside scheme x := by
    intro ext hext
    rw [List.filter_append, h.flat, List.filter_eq_self.mpr fun x hx => decide_eq_true (hext x hx)]
  rcases groupStep_cases scheme hscheme s t with ⟨hout, heq⟩ | ⟨hin, heq | heq | ⟨span, hspan, heq⟩⟩
  · -- closed
    refine ⟨groups ++ cur.toList, none, ?_⟩
    rw [heq]
    refine ⟨h.closed, rfl, ?_, hall, by simp⟩
    rw [List.filter_append, ← h.flat]
    simp [hout]
  · -- a new open group
    have hone := hflat [t] (by simpa using hin)
    refine ⟨groups ++ cur.toList, some (t, []), ?_⟩
    rw [heq]
    refine ⟨h.closed, by rw [Option.map_some, entityOf_single hscheme], ?_, hall, ?_⟩
    · rw [← hone, List.flatMap_append]
      rfl
    · intro g hg
      cases hg
      exact hsuffix
  · -- a group of its own
    have hone := hflat [t] (by simpa using hin)
    refine ⟨groups ++ cur.toList ++ [(t, [])], none, ?_⟩
    rw [heq]
    refine ⟨?_, rfl, ?_, ?_, by simp⟩
    · simp only [h.closed, List.map_append, List.map_singleton, entityOf_single hscheme]
    · rw [← hone, Option.toList_none, List.append_nil, List.flatMap_append]
      rfl
    · intro g hg
      rcases List.mem_append.mp hg with hg | hg
      · exact hall g hg
      · rw [List.mem_singleton.mp hg]
        exact hsuffix.isInfix
  · -- the open group goes on, and may end with the token
    have hone := hflat [t] (by simpa using hin)
    obtain ⟨g, rfl, hentity, hg⟩ := h.extended hspan t
    have hmembers : (groups ++ [(g.1, g.2 ++ [t])]).flatMap members =
        (tokens ++ [t]).filter fun x => ¬ Outside scheme x := by
      rw [← hone, List.flatMap_append, List.flatMap_append, List.append_assoc]
      simp [members]
    have hold := infixes_concat t h.infixes
    rcases heq with heq | heq
    · refine ⟨groups, some (g.1, g.2 ++ [t]), ?_⟩
      rw [heq]
      refine ⟨h.entities, by rw [Option.map_some, hentity], hmembers, hold, ?_⟩
      intro g' hg'
      cases hg'
      exact hg
    · refine ⟨groups ++ [(g.1, g.2 ++ [t])], none, ?_⟩
      rw [heq]
      refine ⟨?_, rfl, by simpa using hmembers, ?_, by simp⟩
      · rw [h.entities, hentity, List.map_append, List.map_singleton]
      · intro g' hg'
        rcases List.mem_append.mp hg' with hg' | hg'
        · exact hold g' hg'
        · rw [List.mem_singleton.mp hg']
          exact hg.isInfix

theorem foldl_groupStep (hscheme : scheme ≠ .flat) (tokens : List (TokenLabel S)) :
    ∃ groups cur, Opened scheme tokens (tokens.foldl (groupStep scheme) ([], none)) groups cur := by
  induction tokens using List.reverseRecOn with
  | nil => exact ⟨[], none, rfl, rfl, rfl, by simp, by simp⟩
  | append_singleton tokens t ih =>
    obtain ⟨groups, cur, h⟩ := ih
    rw [List.foldl_append]
    exact h.step hscheme t

theorem groupSpans_grouped (tokens : List (TokenLabel S)) (scheme : Scheme) :
    Grouped scheme tokens (groupSpans tokens scheme) := by
  rw [groupSpans]
  by_cases hscheme : scheme = .flat
  · -- every token is a group
    rw [if_pos hscheme]
    refine ⟨tokens.map fun t => (t, []), ?_, ?_, ?_⟩
    · rw [List.map_map]
      refine List.map_congr_left fun t _ => ?_
      simp [entityOf, hscheme]
    · rw [List.filter_eq_self.mpr fun t _ => by simp [Outside, hscheme], List.flatMap_map]
      exact List.flatMap_singleton' tokens
    · intro g hg
      obtain ⟨t, ht, rfl⟩ := List.mem_map.mp hg
      obtain ⟨before, after, rfl⟩ := List.append_of_mem ht
      exact ⟨before, after, by simp [members]⟩
  · obtain ⟨groups, cur, h⟩ := foldl_groupStep hscheme tokens
    rw [if_neg hscheme]
    exact ⟨groups ++ cur.toList, h.closed, h.flat, h.all_infixes⟩

/-! ## Where the entities lie -/

/-- The tokens an entity spans, as an interval. -/
def tokensOf (e : Entity S) : ℕ × ℕ := (e.tokenRange.start, e.tokenRange.stop)

theorem foldl_extendSpan_start (span : Entity S) (rest : List (TokenLabel S)) :
    (rest.foldl extendSpan span).tokenRange.start = span.tokenRange.start := by
  induction rest generalizing span with
  | nil => rfl
  | cons t rest ih => rw [List.foldl_cons, ih, extendSpan]

/-- A group spans from its first token to its last. -/
theorem tokensOf_entityOf (g : TokenLabel S × List (TokenLabel S)) :
    ∃ last, (members g).getLast? = some last ∧
      tokensOf (entityOf scheme g) = (g.1.tokenIndex, last.tokenIndex + 1) := by
  obtain ⟨t, rest⟩ := g
  have hstart : (entityOf scheme (t, rest)).tokenRange.start = t.tokenIndex :=
    foldl_extendSpan_start _ _
  induction rest using List.reverseRecOn with
  | nil => exact ⟨t, rfl, by rw [tokensOf, hstart]; rfl⟩
  | append_singleton rest last _ =>
    refine ⟨last, by rw [members, ← List.cons_append, List.getLast?_concat], ?_⟩
    rw [tokensOf, hstart, entityOf_concat (t, rest) last]
    rfl

/-- In tokens with ascending indices, a group spans its own tokens only. -/
theorem tokensOf_mem_iff (hsorted : tokens.Pairwise fun a b => a.tokenIndex < b.tokenIndex)
    {g : TokenLabel S × List (TokenLabel S)} (hg : members g <:+: tokens) {t : TokenLabel S}
    (ht : t ∈ tokens) :
    (tokensOf (entityOf scheme g)).1 ≤ t.tokenIndex ∧
      t.tokenIndex < (tokensOf (entityOf scheme g)).2 ↔ t ∈ members g := by
  obtain ⟨last, hlast, hspan⟩ := @tokensOf_entityOf _ _ scheme g
  obtain ⟨before, after, rfl⟩ := hg
  obtain ⟨hfront, -, hback⟩ := List.pairwise_append.mp hsorted
  obtain ⟨-, hinner, hbefore⟩ := List.pairwise_append.mp hfront
  have hfirst : g.1 ∈ members g := List.mem_cons_self
  have hlastMem : last ∈ members g := List.mem_of_getLast? hlast
  rw [hspan]
  constructor
  · rintro ⟨hlow, hhigh⟩
    rcases List.mem_append.mp ht with ht | ht
    · rcases List.mem_append.mp ht with ht | ht
      · -- before the group
        exact absurd (hbefore t ht g.1 hfirst) (not_lt.mpr hlow)
      · exact ht
    · -- after the group
      have := hback last (List.mem_append_right before hlastMem) t ht
      omega
  · intro hin
    refine ⟨?_, Nat.lt_succ_of_le ?_⟩
    · rcases List.mem_cons.mp hin with rfl | hin
      · exact le_refl _
      · exact ((List.pairwise_cons.mp hinner).1 t hin).le
    · obtain ⟨front, hsplit⟩ := List.getLast?_eq_some_iff.mp hlast
      rw [hsplit] at hinner hin
      rcases List.mem_append.mp hin with hin | hin
      · exact ((List.pairwise_append.mp hinner).2.2 t hin last (List.mem_singleton_self last)).le
      · rw [List.mem_singleton.mp hin]

/-- The entities lie one after the other, and each token with a label is in exactly one. -/
theorem Grouped.partition {entities : List (Entity S)} (h : Grouped scheme tokens entities)
    (hsorted : tokens.Pairwise fun a b => a.tokenIndex < b.tokenIndex) :
    Intervals.Ordered (entities.map tokensOf) ∧ ∀ t ∈ tokens,
      ((entities.map tokensOf).countP fun r => r.1 ≤ t.tokenIndex ∧ t.tokenIndex < r.2) =
        if Outside scheme t then 0 else 1 := by
  obtain ⟨groups, rfl, hflat, hpieces⟩ := h
  have hordered : Intervals.Ordered ((groups.map (entityOf scheme)).map tokensOf) := by
    refine ⟨fun r hr => ?_, ?_⟩
    · obtain ⟨e, he, rfl⟩ := List.mem_map.mp hr
      obtain ⟨g, hg, rfl⟩ := List.mem_map.mp he
      have hfirst : g.1 ∈ members g := List.mem_cons_self
      have hin : (tokensOf (entityOf scheme g)).1 ≤ g.1.tokenIndex ∧
          g.1.tokenIndex < (tokensOf (entityOf scheme g)).2 :=
        (tokensOf_mem_iff hsorted (hpieces g hg) ((hpieces g hg).subset hfirst)).mpr hfirst
      exact hin.1.trans_lt hin.2
    · -- the groups are in the order of the tokens
      have hgroups : (groups.flatMap members).Pairwise fun a b => a.tokenIndex < b.tokenIndex := by
        rw [hflat]
        exact hsorted.sublist List.filter_sublist
      refine List.pairwise_map.mpr (List.pairwise_map.mpr
        ((List.pairwise_flatMap.mp hgroups).2.imp fun {g g'} hlt => ?_))
      obtain ⟨last, hlast, hspan⟩ := @tokensOf_entityOf _ _ scheme g
      obtain ⟨last', -, hspan'⟩ := @tokensOf_entityOf _ _ scheme g'
      rw [hspan, hspan']
      exact hlt last (List.mem_of_getLast? hlast) g'.1 List.mem_cons_self
  refine ⟨hordered, fun t ht => ?_⟩
  have hspans : ∀ g ∈ groups, (tokensOf (entityOf scheme g)).1 ≤ t.tokenIndex ∧
      t.tokenIndex < (tokensOf (entityOf scheme g)).2 ↔ t ∈ members g :=
    fun g hg => tokensOf_mem_iff hsorted (hpieces g hg) ht
  have hmem : t ∈ groups.flatMap members ↔ ¬ Outside scheme t := by
    rw [hflat, List.mem_filter]
    exact ⟨fun h => of_decide_eq_true h.2, fun h => ⟨ht, decide_eq_true h⟩⟩
  by_cases hout : Outside scheme t
  · rw [if_pos hout]
    refine List.countP_eq_zero.mpr fun r hr hin => ?_
    obtain ⟨e, he, rfl⟩ := List.mem_map.mp hr
    obtain ⟨g, hg, rfl⟩ := List.mem_map.mp he
    exact hmem.mp (List.mem_flatMap.mpr ⟨g, hg, (hspans g hg).mp (of_decide_eq_true hin)⟩) hout
  · rw [if_neg hout]
    obtain ⟨g, hg, hin⟩ := List.mem_flatMap.mp (hmem.mpr hout)
    obtain ⟨hlow, hhigh⟩ := (hspans g hg).mpr hin
    exact hordered.countP_eq_one (List.mem_map_of_mem (List.mem_map_of_mem hg)) hlow hhigh

end Svod.Arch.Text
