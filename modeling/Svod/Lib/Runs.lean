/-
  Svod.Lib.Runs

  Runs of a labelled system with a partial step function.

  `Run step ok s s'` says that `s'` is reached from `s` by steps that are all
  enabled and all meet `ok`, a condition on the label and the state before the
  step.  An invariant is shown once per step (`Run.invariant`); a run on fixed
  labels is evaluated by `exec` and read as a `Run` by `run_of_exec`.  What a run
  says of the order of its events is `EachPreceded`, on the history it leaves.
-/

import Mathlib.Tactic.TypeStar

namespace Svod.Lib

variable {σ α : Type*} {step : σ → α → Option σ} {ok ok' : σ → α → Prop}

/-- `s'` is reached from `s` by enabled steps that meet `ok`. -/
inductive Run (step : σ → α → Option σ) (ok : σ → α → Prop) (s : σ) : σ → Prop
  | refl : Run step ok s s
  | tail {s' s'' : σ} {a : α} :
      Run step ok s s' → ok s' a → step s' a = some s'' → Run step ok s s''

namespace Run

/-- A property kept by every step that meets `ok` holds along the whole run. -/
theorem invariant {I : σ → Prop} {s s' : σ} (h : Run step ok s s')
    (hstep : ∀ s a s', I s → ok s a → step s a = some s' → I s') (h0 : I s) : I s' := by
  induction h with
  | refl => exact h0
  | tail _ hok hs ih => exact hstep _ _ _ ih hok hs

theorem trans {s s' s'' : σ} (h : Run step ok s s') (h' : Run step ok s' s'') :
    Run step ok s s'' := by
  induction h' with
  | refl => exact h
  | tail _ hok hs ih => exact ih.tail hok hs

theorem single {s s' : σ} {a : α} (hok : ok s a) (hs : step s a = some s') : Run step ok s s' :=
  refl.tail hok hs

end Run

/-- The state after the given labels, if every step is enabled. -/
def exec (step : σ → α → Option σ) : σ → List α → Option σ
  | s, [] => some s
  | s, a :: as => (step s a).bind fun s' => exec step s' as

@[simp] theorem exec_nil (s : σ) : exec step s [] = some s := rfl

@[simp] theorem exec_cons (s : σ) (a : α) (as : List α) :
    exec step s (a :: as) = (step s a).bind fun s' => exec step s' as := rfl

theorem run_of_exec {s s' : σ} {as : List α} (hok : ∀ a ∈ as, ∀ s, ok s a)
    (h : exec step s as = some s') : Run step ok s s' := by
  induction as generalizing s with
  | nil =>
    rw [exec_nil, Option.some.injEq] at h
    exact h ▸ Run.refl
  | cons a as ih =>
    rw [exec_cons, Option.bind_eq_some_iff] at h
    obtain ⟨t, ht, hrest⟩ := h
    have hhead : Run step ok s t := Run.single (hok a List.mem_cons_self s) ht
    exact hhead.trans (ih (fun b hb => hok b (List.mem_cons_of_mem a hb)) hrest)

/-! ## Histories -/

section

variable {ε : Type*} {R : ε → List ε → Prop}

/-- Every event of a history, the latest first, stands as `R` asks to those before it. -/
def EachPreceded (R : ε → List ε → Prop) : List ε → Prop
  | [] => True
  | e :: es => R e es ∧ EachPreceded R es

theorem eachPreceded_iff {es : List ε} :
    EachPreceded R es ↔ ∀ later e earlier, es = later ++ e :: earlier → R e earlier := by
  induction es with
  | nil => exact iff_of_true trivial fun later e earlier h => by cases later <;> cases h
  | cons e es ih =>
    constructor
    · rintro ⟨hhead, hrest⟩ later x earlier h
      cases later with
      | nil =>
        obtain ⟨rfl, rfl⟩ := List.cons.inj h
        exact hhead
      | cons y later =>
        exact ih.mp hrest later x earlier (List.cons.inj h).2
    · intro h
      refine ⟨h [] e es rfl, ih.mpr fun later x earlier hes => ?_⟩
      exact h (e :: later) x earlier (by rw [hes, List.cons_append])

end

end Svod.Lib
