import Mathlib.Data.List.Basic

/-! Runs of a partial step function under a guard on each step, and the rule that carries a
one-step invariant along a run. -/
namespace Transition

variable {σ τ ε : Type*}

/-- Every step of the run is enabled and meets the guard. -/
inductive Run (step : σ → ε → Option σ) (ok : σ → ε → Prop) (s : σ) : σ → Prop
  | refl : Run step ok s s
  | tail {t u e} (run : Run step ok s t) (guard : ok t e) (next : step t e = some u) :
      Run step ok s u

/-- The guard that excludes nothing. -/
abbrev Free (_ : σ) (_ : ε) : Prop := True

/-- Perform a list of steps in order. -/
def exec (step : σ → ε → Option σ) : σ → List ε → Option σ
  | s, [] => some s
  | s, e :: es => (step s e).bind fun t => exec step t es

namespace Run

variable {step : σ → ε → Option σ} {ok ok' : σ → ε → Prop} {s t u : σ}

/-- What holds at the start and survives every guarded step holds at the end of the run. -/
theorem invariant {I : σ → Prop} (h : Run step ok s t) (h0 : I s)
    (hstep : ∀ a e b, I a → ok a e → step a e = some b → I b) : I t := by
  induction h with
  | refl => exact h0
  | tail _ hg hs ih => exact hstep _ _ _ ih hg hs

theorem trans (h : Run step ok s t) (h' : Run step ok t u) : Run step ok s u := by
  induction h' with
  | refl => exact h
  | tail _ hg hs ih => exact .tail ih hg hs

theorem mono (h : Run step ok s t) (hg : ∀ a e, ok a e → ok' a e) : Run step ok' s t := by
  induction h with
  | refl => exact .refl
  | tail _ hk hs ih => exact .tail ih (hg _ _ hk) hs

theorem free (h : Run step ok s t) : Run step Free s t := h.mono fun _ _ _ => trivial

/-- Each step of a run starts where a part of the run leads. -/
theorem reaching (h : Run step ok s t) : Run step (fun a e => ok a e ∧ Run step Free s a) s t := by
  induction h with
  | refl => exact .refl
  | tail hr hg hs ih => exact .tail ih ⟨hg, hr.free⟩ hs

theorem of_exec {es : List ε} (h : exec step s es = some t) : Run step Free s t := by
  induction es generalizing s with
  | nil =>
    obtain rfl : s = t := by simpa [exec] using h
    exact .refl
  | cons e es ih =>
    simp only [exec, Option.bind_eq_some_iff] at h
    obtain ⟨u, hu, h⟩ := h
    exact (Run.tail .refl trivial hu).trans (ih h)

/-- A test that is passed after the steps is passed by a state that a run reaches. -/
theorem exists_of_exec (step : σ → ε → Option σ) (s : σ) (es : List ε) (p : σ → Bool)
    (h : (exec step s es).any p = true) :
    ∃ t, Run step Free s t ∧ p t = true := by
  obtain ⟨t, ht, hp⟩ := (Option.any_eq_true p _).mp h
  exact ⟨t, of_exec ht, hp⟩

/-- The steps that meet the guard. -/
def guarded (step : σ → ε → Option σ) (ok : σ → ε → Prop) [∀ s e, Decidable (ok s e)] (s : σ)
    (e : ε) : Option σ :=
  if ok s e then step s e else none

theorem of_guarded [∀ s e, Decidable (ok s e)] (h : Run (guarded step ok) Free s t) :
    Run step ok s t := by
  induction h with
  | refl => exact .refl
  | tail _ _ hs ih =>
    obtain ⟨hok, hs⟩ := Option.ite_none_right_eq_some.mp hs
    exact .tail ih hok hs

/-- The same for a run under a guard. -/
theorem exists_of_guarded (step : σ → ε → Option σ) (ok : σ → ε → Prop)
    [∀ s e, Decidable (ok s e)] (s : σ) (es : List ε) (p : σ → Bool)
    (h : (exec (guarded step ok) s es).any p = true) : ∃ t, Run step ok s t ∧ p t = true := by
  obtain ⟨t, ht, hp⟩ := exists_of_exec (guarded step ok) s es p h
  exact ⟨t, of_guarded ht, hp⟩

/-- The same for a run under a guard behind a first step. -/
theorem exists_behind (step : σ → ε → Option σ) (ok : σ → ε → Prop)
    [∀ s e, Decidable (ok s e)] (s : σ) (e : ε) (es : List ε) (p : σ → Bool)
    (h : ((step s e).any fun u => (exec (guarded step ok) u es).any p) = true) :
    ∃ u t, step s e = some u ∧ Run step ok u t ∧ p t = true := by
  obtain ⟨u, hu, h⟩ := (Option.any_eq_true _ _).mp h
  obtain ⟨t, ht, hp⟩ := exists_of_guarded step ok u es p h
  exact ⟨u, t, hu, ht, hp⟩

/-- What holds wherever a run leads holds after steps that can be performed. -/
theorem after_exec {es : List ε} {C : σ → Prop} (h : (exec step s es).isSome = true)
    (hc : ∀ t, Run step Free s t → C t) : ∃ t, exec step s es = some t ∧ C t := by
  obtain ⟨t, ht⟩ := Option.isSome_iff_exists.mp h
  exact ⟨t, ht, hc t (of_exec ht)⟩

end Run
end Transition
