import Pfsnitch.Service

/-!
# Pfsnitch.Held

Divert rules are loaded in front of a held socket as long as no check is fooled.

A script looks for a process of the program before it loads anything, and the watchdog
looks for one and then for `divert` in the anchor.  Neither sees the socket.  While each
check that sends a script on to load finds the socket held, and no daemon leaves it
between the check and the last load, every load stands in front of a daemon
(`loads_held`).  A daemon that has not bound yet passes the check as well, and so does a
command (`loads_held_fails`).
-/

namespace Pfsnitch.Service

open Lib

/-- A script is between its check and its last load. -/
def Pc.loading : Pc → Bool
  | .load _ | .loadUdp _ | .watchLoad _ => true
  | _ => false

/-- The next step of a script is a check, and sends it on to load. -/
def Pc.decides (m : Machine) (ok : Bool) : Pc → Bool
  | .pgrep _ => m.running
  | .watchRules w => 3 ≤ w.stranded + 1 && !(ok && m.rules == .divert)
  | _ => false

namespace Machine

/-- Some script is about to load. -/
def exposed (m : Machine) : Bool := m.scripts.any Pc.loading

/-- What is about to be loaded is loaded in front of a daemon. -/
def Covered (m : Machine) : Prop := m.exposed → m.held

end Machine

/-- A check that sends a script on to load finds the socket held, and no daemon leaves the
socket to nobody while a script is about to load. -/
def Careful (m : Machine) : Event → Prop
  | .script i ok => m.scripts[i]?.any (·.decides m ok) → m.held
  | .exit pid => m.exposed → (m.exit pid).held
  | _ => True

instance (m : Machine) : (e : Event) → Decidable (Careful m e)
  | .script _ _ | .exit _ => inferInstanceAs (Decidable (_ → _))
  | .call _ | .command | .byHand | .spawn | .bind _ | .supervisorExit | .squat _
  | .setUdpDivert _ _ _ => .isTrue trivial

/-! ## one step of a script -/

namespace Machine

/-- A flush leaves the processes alone. -/
@[simp] theorem held_flush (m : Machine) (ok : Bool) : (m.flush ok).held = m.held := by
  cases ok <;> rfl

@[simp] theorem scripts_flush (m : Machine) (ok : Bool) : (m.flush ok).scripts = m.scripts := by
  cases ok <;> rfl

/-- A process that has just started does not hold the socket. -/
theorem held_launch (m : Machine) {role : Role} (h : role ≠ .daemon true) :
    (m.launch role).held = m.held := by
  simp [held, launch, h]

end Machine

namespace Pc

variable {cfg : Config} {m m' : Machine} {ok : Bool} {pc pc' : Pc} {loads : List Load}

/-- A killed watchdog does not load. -/
theorem loading_killWatch (h : pc.killWatch.loading) : pc.loading := by
  cases pc <;> first | exact h | simp [killWatch, loading] at h

/-- A step of a script leaves the daemons alone. -/
theorem step_held (h : pc.step cfg m ok = some (m', pc', loads)) : m'.held = m.held := by
  have hlaunch : (m.launch .command).held = m.held := m.held_launch (by simp)
  cases pc <;> simp only [step] at h <;> grind [Machine.held_flush, Machine.held]

/-- A script starts the watchdog, or kills it, or leaves the other scripts alone. -/
theorem step_scripts (h : pc.step cfg m ok = some (m', pc', loads)) :
    m'.scripts = m.scripts ∨ m'.scripts = m.scripts ++ [.watch {}] ∨
      m'.scripts = m.scripts.map killWatch := by
  cases pc <;> simp only [step] at h <;> grind [Machine.scripts_flush, Machine.launch]

/-- A script comes to load by a check. -/
theorem step_loading (h : pc.step cfg m ok = some (m', pc', loads)) (hpc : pc'.loading) :
    pc.loading ∨ pc.decides m ok := by
  cases pc <;> simp only [step] at h <;> grind [loading, decides]

/-- A script loads after a check only. -/
theorem step_loads (h : pc.step cfg m ok = some (m', pc', loads)) (hloads : loads ≠ []) :
    pc.loading := by
  cases pc <;> simp only [step] at h <;> grind [loading]

end Pc

/-! ## one step of the machine -/

section
variable {cfg : Config} {m m' : Machine} {e : Event} {loads : List Load}

/-- The step of a script. -/
theorem step_script {i : Nat} {ok : Bool} (h : step cfg m (.script i ok) = some (m', loads)) :
    ∃ pc m₁ pc', m.scripts[i]? = some pc ∧ pc.step cfg m ok = some (m₁, pc', loads) ∧
      m' = { m₁ with scripts := m₁.scripts.set i pc' } := by
  simp only [step, Option.bind_eq_bind, Option.bind_eq_some_iff] at h
  obtain ⟨pc, hpc, ⟨m₁, pc', loads'⟩, hstep, h⟩ := h
  obtain ⟨rfl, rfl⟩ : _ = m' ∧ loads' = loads := by simpa using h
  exact ⟨pc, m₁, pc', hpc, hstep, rfl⟩

/-- No script is about to load but those that were, and the one that has just checked. -/
theorem exposed_script {i : Nat} {ok : Bool} {pc pc' : Pc} (hi : m.scripts[i]? = some pc)
    (h : pc.step cfg m ok = some (m', pc', loads))
    (hexp : ({ m' with scripts := m'.scripts.set i pc' } : Machine).exposed) :
    m.exposed ∨ pc.decides m ok := by
  obtain ⟨pc₁, hmem, hload⟩ := List.any_eq_true.mp hexp
  rcases List.mem_or_eq_of_mem_set hmem with hmem | rfl
  · left
    rcases Pc.step_scripts h with hs | hs | hs
    · rw [hs] at hmem
      exact List.any_eq_true.mpr ⟨pc₁, hmem, hload⟩
    · rw [hs, List.mem_append, List.mem_singleton] at hmem
      rcases hmem with hmem | rfl
      · exact List.any_eq_true.mpr ⟨pc₁, hmem, hload⟩
      · simp [Pc.loading] at hload
    · rw [hs, List.mem_map] at hmem
      obtain ⟨pc₀, hpc₀, rfl⟩ := hmem
      exact List.any_eq_true.mpr ⟨pc₀, hpc₀, Pc.loading_killWatch hload⟩
  · refine (Pc.step_loading h hload).imp_left fun hpc => ?_
    exact List.any_eq_true.mpr ⟨pc, List.mem_of_getElem? hi, hpc⟩

/-- A careful step keeps what is about to be loaded in front of a daemon. -/
theorem step_covered (hok : Careful m e) (h : step cfg m e = some (m', loads))
    (hcov : m.Covered) : m'.Covered := by
  cases e with
  | call c =>
      obtain ⟨rfl, -⟩ := by simpa [step] using h
      intro hexp
      apply hcov
      cases c <;> simpa [Machine.exposed, Command.first, Pc.loading] using hexp
  | script i ok =>
      obtain ⟨pc, m₁, pc', hi, hstep, rfl⟩ := step_script h
      intro hexp
      have hheld : m.held := by
        rcases exposed_script hi hstep hexp with hexp | hdec
        · exact hcov hexp
        · exact hok (by simpa [hi] using hdec)
      rwa [← Pc.step_held hstep] at hheld
  | command | byHand =>
      obtain ⟨rfl, -⟩ := by simpa [step] using h
      intro hexp
      rw [Machine.held_launch _ (by simp)]
      exact hcov hexp
  | spawn =>
      cases hsup : m.supervisor with
      | none => simp [step, hsup] at h
      | some child =>
          simp only [step, hsup] at h
          split_ifs at h
          obtain ⟨rfl, -⟩ := by simpa using h
          intro hexp
          have hheld : (m.launch (.daemon false)).held := by
            rw [Machine.held_launch _ (by simp)]
            exact hcov hexp
          exact hheld
  | bind pid =>
      simp only [step] at h
      split_ifs at h with hbind
      obtain ⟨rfl, -⟩ := by simpa using h
      intro _
      simp only [Machine.held, List.any_map, List.any_eq_true]
      exact ⟨_, hbind.1, by simp⟩
  | exit pid =>
      simp only [step] at h
      split_ifs at h
      obtain ⟨rfl, -⟩ := by simpa using h
      exact hok
  | supervisorExit =>
      obtain ⟨rfl, -⟩ := by simpa [step] using h
      exact hcov
  | squat b =>
      simp only [step] at h
      split_ifs at h
      obtain ⟨rfl, -⟩ := by simpa using h
      exact hcov
  | setUdpDivert pid divert ok =>
      simp only [step] at h
      split_ifs at h
      all_goals
        obtain ⟨rfl, -⟩ := by simpa using h
        exact hcov

/-- A load is made by a daemon that holds the socket, or by a script after its check. -/
theorem load_cases (h : step cfg m e = some (m', loads)) (hloads : loads ≠ []) :
    m'.held = m.held ∧ (m.held ∨ m.exposed) := by
  cases e with
  | script i ok =>
      obtain ⟨pc, m₁, pc', hi, hstep, rfl⟩ := step_script h
      have hexp : m.exposed :=
        List.any_eq_true.mpr ⟨pc, List.mem_of_getElem? hi, Pc.step_loads hstep hloads⟩
      have hheld : m₁.held = m.held := Pc.step_held hstep
      exact ⟨hheld, .inr hexp⟩
  | setUdpDivert pid divert ok =>
      simp only [step] at h
      split_ifs at h with hpid
      all_goals
        have hheld : m.held := List.any_eq_true.mpr ⟨_, hpid, rfl⟩
        obtain ⟨rfl, -⟩ := by simpa using h
        exact ⟨rfl, .inl hheld⟩
  | spawn =>
      cases hsup : m.supervisor with
      | none => simp [step, hsup] at h
      | some child =>
          simp only [step, hsup] at h
          split_ifs at h
          simp_all
  | call _ | command | byHand | supervisorExit =>
      exact absurd (by simpa [step] using (congrArg (·.map Prod.snd) h).symm) hloads
  | bind _ | exit _ | squat _ =>
      simp only [step] at h
      split_ifs at h
      exact absurd (by simpa using (congrArg (·.map Prod.snd) h).symm) hloads

end

/-! ## the result -/

/-- Every load stands in front of a daemon that holds the socket. -/
theorem loads_held {cfg : Config} {m₀ m m' : Machine} {e : Event} {loads : List Load}
    (h₀ : m₀.exposed = false) (hrun : Run (step cfg) Careful m₀ m)
    (h : step cfg m e = some (m', loads)) (hloads : loads ≠ []) : m.held ∧ m'.held := by
  have hcov : m.Covered := by
    refine hrun.invariant ?_ fun _ _ _ _ hcov hok hstep => step_covered hok hstep hcov
    simp [Machine.Covered, h₀]
  obtain ⟨hheld', hload⟩ := load_cases h hloads
  have hheld : m.held := hload.elim id hcov
  exact ⟨hheld, hheld' ▸ hheld⟩

/-- The machine at boot. -/
def Machine.boot : Machine where
  procs := []
  next := 0
  supervisor := none
  squatter := false
  rules := .empty
  udp := false
  scripts := []

/-- `start` up to its `pgrep`, with the daemon that the supervisor spawns. -/
def started : List Event :=
  [.call .start, .script 0 false, .script 0 true, .script 0 true, .script 0 true, .script 0 true,
    .spawn, .script 0 true]

/-- `start` is about to load `anchor.conf`; the daemon has bound the socket, or not yet. -/
def starting (bound : Bool) : Machine :=
  { Machine.boot with
    procs := [⟨0, .daemon bound⟩]
    next := 1
    supervisor := some (some 0)
    scripts := [.load .start] }

/-- The daemon binds before the `pgrep`: `anchor.conf` is loaded in front of it. -/
theorem loads_held_start :
    Run (step ⟨false, true⟩) Careful .boot (starting true) ∧ (starting true).held ∧
      { starting true with rules := .divert, scripts := [.loadUdp .start] : Machine }.held := by
  have hexec : exec (step ⟨false, true⟩) Careful .boot (started ++ [.bind 0, .script 0 true]) =
      some (starting true) := by decide
  have hrun := (run_of_exec hexec).mono fun _ _ h => h.1
  exact ⟨hrun, loads_held rfl hrun (e := .script 0 true) rfl (List.cons_ne_nil Load.anchor [])⟩

/-- The daemon has been spawned and has not bound yet: `pgrep` finds it, and `anchor.conf`
is loaded with nobody behind it. -/
theorem loads_held_fails :
    ¬ ∀ (cfg : Config) (m₀ m m' : Machine) (e : Event) (loads : List Load), m₀.exposed = false →
      Run (step cfg) (fun _ _ => True) m₀ m → step cfg m e = some (m', loads) → loads ≠ [] →
        m.held := by
  intro h
  have hexec : exec (step ⟨false, true⟩) (fun _ _ => True) .boot (started ++ [.script 0 true]) =
      some (starting false) := by decide
  have hrun := (run_of_exec hexec).mono fun _ _ h => h.1
  have hheld := h _ _ _ _ (.script 0 true) _ rfl hrun rfl (List.cons_ne_nil Load.anchor [])
  simp [Machine.held, starting] at hheld

-- a command passes the check as well: `reload` while only a command runs and the network is open
example : (exec (step ⟨false, true⟩) (fun _ _ => True) { Machine.boot with rules := .failopen }
    [.command, .call .reload, .script 0 true, .script 0 true]).any
      (fun m => m.rules == .divert && !m.held) := by decide

end Pfsnitch.Service
