/-
  Svod.Device.LruAllocatorSound

  The pool conserves buffers.  The invariant is carried through an operation with
  the buffers it has in hand, as every primitive moves one buffer at a time.
-/

import Svod.Device.LruAllocator

namespace Svod.Device.Lru

open Svod.Lib

variable {E : Type} {max : ℕ} {hand : List ℕ} {s : State}
variable {key : Key} {buffer : ℕ} {s' : State}

/-! ## The invariant -/

/-- Every buffer obtained is in one place, and every pool is in order. -/
structure Conserves (max : ℕ) (hand : List ℕ) (s : State) : Prop where
  /-- Owned, pooled, returned or in hand: each buffer is so exactly once. -/
  books : (hand ++ (s.owned.map Prod.fst ++ (s.cache.contents ++ s.returned.map Prod.fst))).Perm
    (List.range s.fresh)
  pooled : ∀ key, ∀ buffer ∈ s.cache.get key, s.freedWith buffer = some key ∧
    key.2.nolru = false ∧ (s.misfiled buffer = false → s.madeFor buffer = key)
  capacity : ∀ key, (s.cache.get key).length ≤ max
  asked : ∀ buffer key, (buffer, key) ∈ s.owned → s.misfiled buffer = false →
    s.madeFor buffer = key

/-- The buffer in hand was made for the key. -/
def Fits (s : State) (buffer : ℕ) (key : Key) : Prop :=
  s.misfiled buffer = false → s.madeFor buffer = key

theorem Conserves.new : Conserves max [] State.new where
  books := List.Perm.refl _
  pooled _ _ h := nomatch h
  capacity _ := Nat.zero_le _
  asked _ _ h := nomatch h

theorem mem_contents {p : Pools Key ℕ} (h : buffer ∈ p.get key) : buffer ∈ p.contents := by
  rw [← Pools.map_fst_entriesOf]
  exact List.mem_map_of_mem (Pools.mem_entriesOf.mpr h)

namespace Conserves

variable (h : Conserves max hand s)

include h in
theorem pooled_lt (hb : buffer ∈ s.cache.get key) : buffer < s.fresh := by
  refine List.mem_range.mp (h.books.mem_iff.mp ?_)
  simp only [List.mem_append]
  exact .inr (.inr (.inl (mem_contents hb)))

include h in
theorem owned_lt (hb : (buffer, key) ∈ s.owned) : buffer < s.fresh := by
  refine List.mem_range.mp (h.books.mem_iff.mp ?_)
  simp only [List.mem_append]
  exact .inr (.inl (List.mem_map.mpr ⟨(buffer, key), hb, rfl⟩))

end Conserves

/-! ## Primitives -/

/-- A buffer in hand goes back to the inner allocator. -/
theorem Conserves.innerFree (h : Conserves max (buffer :: hand) s) (key : Key) :
    Conserves max hand (innerFree s buffer key) := by
  refine ⟨?_, h.pooled, h.capacity, h.asked⟩
  refine List.Perm.trans ?_ h.books
  show (hand ++ (s.owned.map Prod.fst ++ (s.cache.contents ++ buffer ::
    s.returned.map Prod.fst))).Perm (buffer :: (hand ++ _))
  simp only [← List.append_assoc]
  exact List.perm_middle

/-- What an allocation leaves: the buffer in hand, or nothing lost. -/
def Held (max : ℕ) (hand : List ℕ) (key : Key) : State × Except E ℕ → Prop
  | (s, .ok buffer) => Conserves max (buffer :: hand) s ∧ Fits s buffer key
  | (s, .error _) => Conserves max hand s

/-- A new buffer comes into hand. -/
theorem innerAlloc_held (h : Conserves max hand s) (key : Key) (answer : Except E Bool) :
    Held max hand key (innerAlloc s key answer) := by
  cases answer with
  | error e => exact h
  | ok zeroed =>
    have hne : ∀ {b}, b < s.fresh → b ≠ s.fresh := fun hb => Nat.ne_of_lt hb
    refine ⟨⟨?_, fun k b hb => ?_, h.capacity, fun b k hb hm => ?_⟩, fun _ => ?_⟩
    · show (s.fresh :: (hand ++ _)).Perm (List.range (s.fresh + 1))
      rw [List.range_succ]
      exact (h.books.cons s.fresh).trans (List.perm_append_singleton _ _).symm
    · obtain ⟨hfreed, hlru, hmade⟩ := h.pooled k b hb
      refine ⟨hfreed, hlru, fun hm => ?_⟩
      exact (Function.update_of_ne (hne (h.pooled_lt hb)) _ _).trans (hmade hm)
    · exact (Function.update_of_ne (hne (h.owned_lt hb)) _ _).trans (h.asked b k hb hm)
    · exact Function.update_self _ _ _

/-- Every pooled buffer goes back to the inner allocator. -/
theorem Conserves.freeCache (h : Conserves max hand s) : Conserves max hand (freeCache s) := by
  refine ⟨?_, fun _ _ hb => (nomatch hb), fun _ => Nat.zero_le _, h.asked⟩
  refine List.Perm.trans (.of_eq ?_) h.books
  show hand ++ (s.owned.map Prod.fst ++ ([] ++ (s.cache.entriesOf ++ s.returned).map Prod.fst)) = _
  rw [List.map_append, Pools.map_fst_entriesOf, List.nil_append]

/-- A pooled buffer comes into hand. -/
theorem Conserves.pop {key : Key} {buffer : ℕ} {cache : Pools Key ℕ} (h : Conserves max hand s)
    (hp : s.cache.pop key = some (buffer, cache)) :
    Conserves max (buffer :: hand) { s with cache := cache } ∧
      Fits { s with cache := cache } buffer key := by
  obtain ⟨hperm, hget, hother⟩ := Pools.pop_eq_some hp
  have hsub : ∀ k b, b ∈ cache.get k → b ∈ s.cache.get k := by
    intro k b hb
    by_cases hk : k = key
    · subst hk
      rw [hget]
      exact List.mem_cons_of_mem _ hb
    · rwa [← hother k hk]
  refine ⟨⟨?_, fun k b hb => h.pooled k b (hsub k b hb), fun k => ?_, h.asked⟩, ?_⟩
  · refine List.Perm.trans ?_ h.books
    show (buffer :: (hand ++ (s.owned.map Prod.fst ++
      (cache.contents ++ s.returned.map Prod.fst)))).Perm _
    refine List.Perm.trans ?_ (((hperm.symm.append_right _).append_left _).append_left _)
    simp only [List.cons_append]
    exact (List.perm_middle.symm.trans (List.Perm.append_left _ List.perm_middle.symm))
  · refine le_trans ?_ (h.capacity k)
    by_cases hk : k = key
    · subst hk
      rw [hget]
      exact Nat.le_succ _
    · rw [hother k hk]
  · exact (h.pooled key buffer (by rw [hget]; exact List.mem_cons_self)).2.2

/-- A buffer in hand, freed under the key, goes into its pool. -/
theorem Conserves.push {buffer : ℕ} {key : Key} (h : Conserves max (buffer :: hand) s)
    (hlru : key.2.nolru = false) (hfreed : s.freedWith buffer = some key)
    (hfits : Fits s buffer key) :
    let r := s.cache.pushIfRoom key buffer max
    (r.2 = none ∧ Conserves max hand { s with cache := r.1 }) ∨
      (r.2 = some buffer ∧ Conserves max (buffer :: hand) { s with cache := r.1 }) := by
  intro r
  obtain ⟨hother, hpush⟩ := Pools.pushIfRoom_spec s.cache key buffer max
  rcases hpush with ⟨hnone, hroom, hget, hperm⟩ | ⟨hsome, hget, hperm⟩
  · refine .inl ⟨hnone, ?_, fun k b hb => ?_, fun k => ?_, h.asked⟩
    · refine List.Perm.trans ?_ h.books
      refine ((hperm.append_right _).append_left _).append_left _ |>.trans ?_
      simp only [List.cons_append]
      exact (List.Perm.append_left _ List.perm_middle).trans List.perm_middle
    · by_cases hk : k = key
      · subst hk
        rw [hget] at hb
        rcases List.mem_cons.mp hb with rfl | hb
        · exact ⟨hfreed, hlru, hfits⟩
        · exact h.pooled k b hb
      · rw [hother k hk] at hb
        exact h.pooled k b hb
    · show (Pools.get r.1 k).length ≤ max
      by_cases hk : k = key
      · subst hk
        rw [hget]
        exact hroom
      · rw [hother k hk]
        exact h.capacity k
  · have hsame : ∀ k, Pools.get r.1 k = s.cache.get k := by
      intro k
      by_cases hk : k = key
      · subst hk
        exact hget
      · exact hother k hk
    refine .inr ⟨hsome, ?_, fun k b hb => ?_, fun k => ?_, h.asked⟩
    · exact (((hperm.append_right _).append_left _).append_left _).trans h.books
    · exact h.pooled k b (hsame k ▸ hb)
    · show (Pools.get r.1 k).length ≤ max
      rw [hsame k]
      exact h.capacity k

/-! ## Operations -/

theorem allocCached_held (h : Conserves max (buffer :: hand) s) (hfits : Fits s buffer key)
    (zero : Bool) (answers : Answers E) :
    Held max hand key (allocCached s buffer key zero answers) := by
  unfold allocCached
  cases answers.fence with
  | error e => exact h.innerFree key
  | ok _ =>
    cases zero with
    | false => exact ⟨h, hfits⟩
    | true =>
      rcases answers.zero with e | _ | _
      · exact h.innerFree key
      · exact innerAlloc_held (h.innerFree key) key answers.alloc
      · exact ⟨⟨h.books, h.pooled, h.capacity, h.asked⟩, hfits⟩

theorem allocMiss_held (h : Conserves max hand s) (key : Key) (answers : Answers E) :
    Held max hand key (allocMiss s key answers) := by
  have hfirst := innerAlloc_held h key answers.alloc
  have hretry := innerAlloc_held h.freeCache key answers.retry
  unfold allocMiss
  generalize answers.alloc = first at hfirst
  generalize answers.retry = retry at hretry
  cases first with
  | ok z => exact hfirst
  | error e => cases retry <;> exact hretry

theorem alloc_held (h : Conserves max hand s) (key : Key) (zero : Bool) (answers : Answers E) :
    Held max hand key (alloc s key zero answers) := by
  unfold alloc
  split_ifs with hlru
  · exact innerAlloc_held h key answers.alloc
  · cases hp : s.cache.pop key with
    | none => exact allocMiss_held h key answers
    | some r =>
      obtain ⟨hs, hfits⟩ := h.pop hp
      exact allocCached_held hs hfits zero answers

theorem Conserves.free {buffer : ℕ} {key : Key} (h : Conserves max (buffer :: hand) s)
    (hfreed : s.freedWith buffer = some key) (hfits : Fits s buffer key) :
    Conserves max hand (free max s buffer key) := by
  unfold Lru.free
  split_ifs with hlru
  · exact h.innerFree key
  · rcases h.push (Bool.eq_false_iff.mpr hlru) hfreed hfits with ⟨hr, hs⟩ | ⟨hr, hs⟩
    · simp only [hr]
      exact hs
    · simp only [hr]
      exact hs.innerFree key

/-! ## Steps -/

theorem disown_spec {owned owned' : List (ℕ × Key)} {asked : Key}
    (hd : disown owned buffer = some (asked, owned')) : owned.Perm ((buffer, asked) :: owned') := by
  obtain ⟨o, ho, heq⟩ := Option.map_eq_some_iff.mp hd
  cases heq
  have hkey : o.1 = buffer := by simpa using List.find?_some ho
  subst hkey
  exact List.perm_cons_erase (List.mem_of_find?_eq_some ho)

theorem Conserves.own (h : Conserves max (buffer :: hand) s) (hfits : Fits s buffer key) :
    Conserves max hand { s with owned := (buffer, key) :: s.owned } := by
  refine ⟨?_, h.pooled, h.capacity, fun b k hb hm => ?_⟩
  · refine List.Perm.trans ?_ h.books
    exact List.perm_middle
  · rcases List.mem_cons.mp hb with heq | hb
    · cases heq
      exact hfits hm
    · exact h.asked b k hb hm

/-- The owner hands a buffer back under a key. -/
theorem Conserves.disown {asked : Key} {owned : List (ℕ × Key)} (h : Conserves max hand s)
    (key : Key) (hd : Lru.disown s.owned buffer = some (asked, owned)) : let s' := { s with
      owned := owned
      freedWith := Function.update s.freedWith buffer (some key)
      misfiled := Function.update s.misfiled buffer (s.misfiled buffer || key ≠ asked) }
    Conserves max (buffer :: hand) s' ∧ Fits s' buffer key := by
  intro s'
  have hperm := disown_spec hd
  have hmem : (buffer, asked) ∈ s.owned := hperm.mem_iff.mpr List.mem_cons_self
  have hbooks : (buffer :: (hand ++ (owned.map Prod.fst ++
      (s.cache.contents ++ s.returned.map Prod.fst)))).Perm (List.range s.fresh) := by
    refine List.Perm.trans ?_ h.books
    refine List.Perm.trans ?_ (((hperm.map Prod.fst).symm.append_right _).append_left _)
    exact List.perm_middle.symm
  have hnotin := (List.nodup_cons.mp (hbooks.nodup_iff.mpr List.nodup_range)).1
  simp only [List.mem_append, not_or] at hnotin
  obtain ⟨-, hnotowned, hnotpooled, -⟩ := hnotin
  refine ⟨⟨hbooks, fun k b hb => ?_, h.capacity, fun b k hb hm => ?_⟩, fun hm => ?_⟩
  · have hne : b ≠ buffer := by
      rintro rfl
      exact hnotpooled (mem_contents hb)
    obtain ⟨hfreed, hlru, hmade⟩ := h.pooled k b hb
    refine ⟨(Function.update_of_ne hne _ _).trans hfreed, hlru, fun hm => hmade ?_⟩
    exact (Function.update_of_ne hne _ _).symm.trans hm
  · have hne : b ≠ buffer := by
      rintro rfl
      exact hnotowned (List.mem_map.mpr ⟨(b, k), hb, rfl⟩)
    refine h.asked b k (hperm.mem_iff.mpr (List.mem_cons_of_mem _ hb)) ?_
    exact (Function.update_of_ne hne _ _).symm.trans hm
  · have hm : (s.misfiled buffer || key ≠ asked) = false :=
      (Function.update_self buffer _ s.misfiled).symm.trans hm
    rw [Bool.or_eq_false_iff, decide_eq_false_iff_not, not_not] at hm
    rw [hm.2]
    exact h.asked buffer asked hmem hm.1

theorem step_conserves {l : Label E} (h : Conserves max [] s) (hs : step max s l = some s') :
    Conserves max [] s' := by
  cases l with
  | alloc key zero answers =>
    have halloc := alloc_held h key zero answers
    unfold step at hs
    rcases hr : alloc s key zero answers with ⟨s₁, e | buffer⟩
    · simp only [hr, Option.some.injEq] at hs halloc
      exact hs ▸ halloc
    · simp only [hr, Option.some.injEq] at hs halloc
      exact hs ▸ halloc.1.own halloc.2
  | free buffer key =>
    unfold step at hs
    cases hd : disown s.owned buffer with
    | none => simp [hd] at hs
    | some r =>
      obtain ⟨hc, hfits⟩ := h.disown key hd
      simp only [hd, Option.some.injEq] at hs
      exact hs ▸ hc.free (Function.update_self buffer _ s.freedWith) hfits
  | write buffer =>
    unfold step at hs
    cases hd : disown s.owned buffer with
    | none => simp [hd] at hs
    | some r =>
      simp only [hd, Option.some.injEq] at hs
      exact hs ▸ ⟨h.books, h.pooled, h.capacity, h.asked⟩

/-! ## Allocations -/

/-- An inner allocation that is asked for zeros gives zeros. -/
def HonoursZero (answers : Answers E) : Prop :=
  answers.alloc ≠ .ok false ∧ answers.retry ≠ .ok false

theorem innerAlloc_zeroed {answer : Except E Bool} (hzero : answer ≠ .ok false)
    (h : innerAlloc s key answer = (s', .ok buffer)) : s'.zeroed buffer = true := by
  rcases answer with e | _ | _
  · cases h
  · exact absurd rfl hzero
  · cases h
    exact Function.update_self ..

theorem alloc_zeroed {answers : Answers E} (hzero : HonoursZero answers)
    (h : alloc s key true answers = (s', .ok buffer)) : s'.zeroed buffer = true := by
  unfold alloc at h
  split_ifs at h with hlru
  · exact innerAlloc_zeroed hzero.1 h
  · cases hp : s.cache.pop key with
    | none =>
      simp only [hp, allocMiss] at h
      rcases hfirst : innerAlloc s key answers.alloc with ⟨s₁, e | b⟩
      · rcases hretry : innerAlloc (freeCache s₁) key answers.retry with ⟨s₂, e' | b'⟩
        · simp [hfirst, hretry] at h
        · simp only [hfirst, hretry] at h
          cases h
          exact innerAlloc_zeroed hzero.2 hretry
      · simp only [hfirst] at h
        cases h
        exact innerAlloc_zeroed hzero.1 hfirst
    | some r =>
      simp only [hp, allocCached] at h
      cases hf : answers.fence with
      | error e =>
        simp only [hf] at h
        cases h
      | ok _ =>
        rcases hz : answers.zero with e | _ | _
        · simp only [hf, hz, if_true, zeroCached] at h
          cases h
        · simp only [hf, hz, if_true, zeroCached] at h
          exact innerAlloc_zeroed hzero.1 h
        · simp only [hf, hz, if_true, zeroCached] at h
          cases h
          exact Function.update_self ..

/-- A miss that fails twice has emptied the pools. -/
theorem alloc_miss_error {e : E} {zero : Bool} {answers : Answers E} (hlru : key.2.nolru = false)
    (hmiss : s.cache.get key = []) (h : alloc s key zero answers = (s', .error e)) :
    s' = freeCache s := by
  unfold alloc at h
  rw [if_neg (by rw [hlru]; exact Bool.false_ne_true), Pools.pop_eq_none hmiss] at h
  simp only [allocMiss] at h
  rcases hfirst : answers.alloc with e₁ | z
  · rcases hretry : answers.retry with e₂ | z
    · simp only [hfirst, hretry, innerAlloc] at h
      cases h
      rfl
    · simp only [hfirst, hretry, innerAlloc] at h
      cases h
  · simp only [hfirst, innerAlloc] at h
    cases h

/-- What an allocation promises in a state. -/
structure AllocSafe (E : Type) (s : State) : Prop where
  /-- A buffer handed out was made for the key, unless its owner freed it under another one. -/
  madeFor : ∀ key zero (answers : Answers E) s' buffer,
    alloc s key zero answers = (s', .ok buffer) → s'.misfiled buffer = false →
      s'.madeFor buffer = key
  /-- A request for zeros gets zeros. -/
  zeroes : ∀ key (answers : Answers E) s' buffer, HonoursZero answers →
    alloc s key true answers = (s', .ok buffer) → s'.zeroed buffer = true
  /-- A failure after a miss leaves no buffer pooled: each has gone back. -/
  missFails : ∀ key zero (answers : Answers E) s' e, key.2.nolru = false →
    s.cache.get key = [] → alloc s key zero answers = (s', .error e) →
      s'.cache = ∅ ∧ s'.returned = s.cache.entriesOf ++ s.returned ∧ s'.owned = s.owned ∧
        s'.fresh = s.fresh

/-- Over any inner allocator, every sequence of allocations and frees conserves the buffers. -/
theorem lruAllocator_conserves (E : Type) (max : ℕ) (s : State)
    (h : Run (step (E := E) max) (fun _ _ => True) State.new s) :
    Conserves max [] s ∧ AllocSafe E s := by
  have hc : Conserves max [] s :=
    h.invariant (fun _ _ _ hs _ hstep => step_conserves hs hstep) Conserves.new
  refine ⟨hc, ?_, fun key answers s' buffer => alloc_zeroed, ?_⟩
  · intro key zero answers s' buffer hr
    have hheld := alloc_held hc key zero answers
    rw [hr] at hheld
    exact hheld.2
  · intro key zero answers s' e hlru hmiss hr
    rw [alloc_miss_error hlru hmiss hr]
    exact ⟨rfl, rfl, rfl, rfl⟩

/-- A buffer is made, freed and handed out again, and a second request fails. -/
def recycle (key : Key) : List (Label Unit) :=
  let answers := ⟨.ok (), .ok true, .ok true, .ok true⟩
  [.alloc key false answers, .write 0, .free 0 key, .alloc key true answers,
    .alloc key false ⟨.ok (), .ok true, .error (), .error ()⟩]

theorem lruAllocator_conserves_recycle :
    ∃ s, exec (step 32) State.new (recycle (64, ⟨false, true, false, false⟩)) = some s ∧
      s.owned = [(0, (64, ⟨false, true, false, false⟩))] ∧
      Conserves 32 [] s ∧ AllocSafe Unit s := by
  have hrun : ∃ s, exec (step 32) State.new (recycle (64, ⟨false, true, false, false⟩)) = some s ∧
      s.owned = [(0, (64, ⟨false, true, false, false⟩))] := ⟨_, rfl, rfl⟩
  obtain ⟨s, hs, howned⟩ := hrun
  exact ⟨s, hs, howned, lruAllocator_conserves Unit 32 s (run_of_exec (fun _ _ _ => trivial) hs)⟩

end Svod.Device.Lru
