import Pfsnitch.Lib.Run
import Mathlib.Data.List.Perm.Basic

/-!
# Pfsnitch.Lib.Serial

Operations on a shared state, and systems that interleave them.

`runAll run` runs operations one after another.  A concurrent system serializes
when each of its steps either leaves the shared state alone or is the whole
effect of one operation (`Commits`): what it reaches is then what the same
operations reach one after another, in the order in which they take effect.

* `serial_of_commits` — a run whose steps all commit serializes;
* `SerialRun.runAll_eq` — the serial run is `runAll`, with the same results;
* `SerialRun.keeps`, `SerialRun.lasts` — what is there, or was written, stays
  unless a later operation names it.
-/

namespace Pfsnitch.Lib

universe u v w

variable {α : Type u} {ρ : Type v} {σ : Type w} {run : α → σ → ρ × σ} {ok : α → σ → Prop}

/-- Operations run one after another: what they return, and the state they leave. -/
def runAll (run : α → σ → ρ × σ) : List α → σ → List ρ × σ
  | [], s => ([], s)
  | a :: as, s =>
    let rest := runAll run as (run a s).2
    ((run a s).1 :: rest.1, rest.2)

theorem runAll_concat (as : List α) (a : α) (s : σ) :
    runAll run (as ++ [a]) s =
      ((runAll run as s).1 ++ [(run a (runAll run as s).2).1], (run a (runAll run as s).2).2) := by
  induction as generalizing s with
  | nil => rfl
  | cons b as ih => simp [runAll, ih]

/-- Operations that took effect one after another, each in a state `ok` allows,
with what they returned. -/
inductive SerialRun (run : α → σ → ρ × σ) (ok : α → σ → Prop) (s : σ) : List (α × ρ) → σ → Prop
  | nil : SerialRun run ok s [] s
  | snoc {log : List (α × ρ)} {t : σ} {a : α} (h : SerialRun run ok s log t) (hok : ok a t) :
      SerialRun run ok s (log ++ [(a, (run a t).1)]) (run a t).2

namespace SerialRun

variable {s t : σ} {log : List (α × ρ)} {κ : Type u} {H : κ → σ → Prop} {N : α → κ → Prop}
  {W : α → ρ → κ → Prop} {k : κ}

/-- A serial run is what `runAll` computes. -/
theorem runAll_eq (h : SerialRun run ok s log t) :
    runAll run (log.map Prod.fst) s = (log.map Prod.snd, t) := by
  induction h with
  | nil => rfl
  | snoc _ _ ih => rw [List.map_append, List.map_singleton, runAll_concat, ih]; simp

/-- What is there (`H`) stays, unless an operation names it (`N`). -/
theorem keeps (h : SerialRun run ok s log t)
    (hkeep : ∀ a t k, ok a t → H k t → N a k ∨ H k (run a t).2) (hs : H k s) :
    H k t ∨ ∃ e ∈ log, N e.1 k := by
  induction h with
  | nil => exact .inl hs
  | snoc _ hok ih =>
      obtain hhas | ⟨e, he, hn⟩ := ih
      · obtain hn | hhas := hkeep _ _ _ hok hhas
        · exact .inr ⟨_, List.mem_concat_self, hn⟩
        · exact .inl hhas
      · exact .inr ⟨e, List.mem_append_left _ he, hn⟩

/-- What an operation wrote (`W`) stays, unless a later operation names it. -/
theorem lasts (h : SerialRun run ok s log t)
    (hkeep : ∀ a t k, ok a t → H k t → N a k ∨ H k (run a t).2)
    (hwrite : ∀ a t k, ok a t → W a (run a t).1 k → H k (run a t).2)
    {pre post : List (α × ρ)} {a : α} {r : ρ} (hlog : log = pre ++ (a, r) :: post)
    (hw : W a r k) : H k t ∨ ∃ e ∈ post, N e.1 k := by
  induction h generalizing post with
  | nil => simp at hlog
  | @snoc log t b _ hok ih =>
      obtain rfl | ⟨post', e, rfl⟩ := List.eq_nil_or_concat post
      · obtain ⟨-, heq⟩ := List.append_inj' hlog rfl
        obtain ⟨rfl, rfl⟩ := Prod.mk.inj (List.singleton_inj.mp heq)
        exact .inl (hwrite _ _ _ hok hw)
      · rw [List.concat_eq_append] at hlog ⊢
        rw [← List.cons_append, ← List.append_assoc] at hlog
        obtain ⟨hpre, heq⟩ := List.append_inj' hlog rfl
        obtain rfl := List.singleton_inj.mp heq
        obtain hhas | ⟨e, he, hn⟩ := ih hpre
        · obtain hn | hhas := hkeep _ _ _ hok hhas
          · exact .inr ⟨_, List.mem_concat_self, hn⟩
          · exact .inl hhas
        · exact .inr ⟨e, List.mem_append_left _ he, hn⟩

end SerialRun

/-! ## systems whose steps commit -/

variable {τ : Type u} {ι : Type v} {ο : Type w} {step : τ → ι → Option (τ × List ο)}
  {okStep : τ → ι → Prop} {shared : τ → σ} {done : τ → List (α × ρ)}

/-- A step leaves the shared state alone, or is the effect of one operation. -/
inductive Commits (run : α → σ → ρ × σ) (ok : α → σ → Prop) (shared : τ → σ)
    (done : τ → List (α × ρ)) (t u : τ) : Prop
  | silent (hshared : shared u = shared t) (hdone : (done u).Perm (done t))
  | takes (a : α) (hok : ok a (shared t)) (hshared : shared u = (run a (shared t)).2)
      (hdone : (done u).Perm ((a, (run a (shared t)).1) :: done t))

/-- A run whose steps all commit is a serial run of the operations that are done. -/
theorem serial_of_commits {t u : τ} (hrun : Run step okStep t u) (hnone : done t = [])
    {P : τ → Prop} (hinit : P t)
    (hpres : ∀ t i u o, P t → okStep t i → step t i = some (u, o) → P u)
    (hstep : ∀ t i u o, P t → okStep t i → step t i = some (u, o) →
      Commits run ok shared done t u) :
    ∃ log, log.Perm (done u) ∧ SerialRun run ok (shared t) log (shared u) := by
  have hserial : P u ∧ ∃ log, log.Perm (done u) ∧ SerialRun run ok (shared t) log (shared u) := by
    apply hrun.invariant (P := fun u => P u ∧ ∃ log : List (α × ρ), log.Perm (done u) ∧
      SerialRun run ok (shared t) log (shared u))
    · exact ⟨hinit, [], by rw [hnone], .nil⟩
    rintro v i w o ⟨hP, log, hperm, hlog⟩ hok hs
    refine ⟨hpres v i w o hP hok hs, ?_⟩
    cases hstep v i w o hP hok hs with
    | silent hshared hdone => exact ⟨log, hperm.trans hdone.symm, hshared ▸ hlog⟩
    | takes a hok hshared hdone =>
        refine ⟨log ++ [(a, (run a (shared v)).1)], ?_, hshared ▸ hlog.snoc hok⟩
        exact (List.perm_append_singleton _ _).trans ((hperm.cons _).trans hdone.symm)
  exact hserial.2

end Pfsnitch.Lib
