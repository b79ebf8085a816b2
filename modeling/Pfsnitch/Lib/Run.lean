import Mathlib.Tactic.SplitIfs

/-!
# Pfsnitch.Lib.Run

Runs of a system that takes events one at a time, and the rules for proving
things about them.

A step function gives the next state and what became observable, or `none`
when the event cannot happen in that state.  `Run step ok s s'` is a run from
`s` to `s'` whose steps all meet the condition `ok`; with `ok` always true it
is plain reachability.

* `Run.invariant` — what every step preserves, a run preserves;
* `Run.guarded` — an invariant may be used as a condition;
* `Run.mono`, `Run.trans` — weakening the condition, composing runs;
* `run_of_exec`, `exists_run_of_exec` — an executable list of events is a run.
-/

namespace Pfsnitch.Lib

universe u v w

variable {σ : Type u} {ι : Type v} {ο : Type w} {step : σ → ι → Option (σ × List ο)}
  {ok ok' : σ → ι → Prop}

/-- A run of the system, all of whose steps meet `ok`. -/
inductive Run (step : σ → ι → Option (σ × List ο)) (ok : σ → ι → Prop) (s : σ) : σ → Prop
  | refl : Run step ok s s
  | tail {t u : σ} {i : ι} {o : List ο} (run : Run step ok s t) (hok : ok t i)
      (hstep : step t i = some (u, o)) : Run step ok s u

namespace Run

/-- What every step that meets the condition preserves, a run preserves. -/
theorem invariant {P : σ → Prop} {s s' : σ} (hrun : Run step ok s s') (hinit : P s)
    (hpres : ∀ t i u o, P t → ok t i → step t i = some (u, o) → P u) : P s' := by
  induction hrun with
  | refl => exact hinit
  | tail _ hok hstep ih => exact hpres _ _ _ _ ih hok hstep

/-- An invariant holds before every step of a run. -/
theorem guarded {P : σ → Prop} {s s' : σ} (hrun : Run step ok s s') (hinit : P s)
    (hpres : ∀ t i u o, P t → ok t i → step t i = some (u, o) → P u) :
    P s' ∧ Run step (fun t i => ok t i ∧ P t) s s' := by
  induction hrun with
  | refl => exact ⟨hinit, .refl⟩
  | tail _ hok hstep ih =>
      exact ⟨hpres _ _ _ _ ih.1 hok hstep, .tail ih.2 ⟨hok, ih.1⟩ hstep⟩

/-- A run under a condition is a run under a weaker one. -/
theorem mono {s s' : σ} (hrun : Run step ok s s') (h : ∀ t i, ok t i → ok' t i) :
    Run step ok' s s' := by
  induction hrun with
  | refl => exact .refl
  | tail _ hok hstep ih => exact .tail ih (h _ _ hok) hstep

theorem trans {s t u : σ} (h₁ : Run step ok s t) (h₂ : Run step ok t u) : Run step ok s u := by
  induction h₂ with
  | refl => exact h₁
  | tail _ hok hstep ih => exact .tail ih hok hstep

/-- One step. -/
theorem single {s t : σ} {i : ι} {o : List ο} (hok : ok s i) (hstep : step s i = some (t, o)) :
    Run step ok s t :=
  .tail .refl hok hstep

end Run

/-- Take a list of events, as long as each can happen and meets the condition. -/
def exec (step : σ → ι → Option (σ × List ο)) (ok : σ → ι → Prop) [∀ s i, Decidable (ok s i)]
    (s : σ) : List ι → Option σ
  | [] => some s
  | i :: is =>
    if ok s i then
      match step s i with
      | some (t, _) => exec step ok t is
      | none => none
    else none

/-- An executed list of events is a run by these events. -/
theorem run_of_exec [∀ s i, Decidable (ok s i)] {s s' : σ} {is : List ι}
    (h : exec step ok s is = some s') : Run step (fun t i => ok t i ∧ i ∈ is) s s' := by
  induction is generalizing s with
  | nil =>
      rw [exec, Option.some.injEq] at h
      exact h ▸ .refl
  | cons i is ih =>
      rw [exec] at h
      split_ifs at h with hok
      cases hstep : step s i with
      | none => simp [hstep] at h
      | some r =>
          obtain ⟨t, o⟩ := r
          simp only [hstep] at h
          exact (Run.single ⟨hok, List.mem_cons_self⟩ hstep).trans
            ((ih h).mono fun _ _ hj => ⟨hj.1, List.mem_cons_of_mem _ hj.2⟩)

/-- An executed list of events that ends well is a run that ends well. -/
theorem exists_run_of_exec [∀ s i, Decidable (ok s i)] {s : σ} {is : List ι} {p : σ → Bool}
    (h : (exec step ok s is).any p = true) :
    ∃ s', Run step (fun t i => ok t i ∧ i ∈ is) s s' ∧ p s' = true := by
  cases hs : exec step ok s is with
  | none => simp [hs] at h
  | some s' => exact ⟨s', run_of_exec hs, by simpa [hs] using h⟩

end Pfsnitch.Lib
