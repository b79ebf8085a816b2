import Pfsnitch.Held
import Pfsnitch.Pf

/-!
# Pfsnitch.Heals

When the daemon is gone for good, the watchdog ends what divert rules do to the network.

`toGo` says how many steps the watchdog still has to take; each of its steps lowers it
until nothing diverts any more, and nothing that happens besides raises it.
-/

namespace Pfsnitch.Service

open Lib

/-- The reset of the module that the watchdog waits for. -/
def Pc.reset : Pc → List Proc
  | .watchWait _ pid => [⟨pid, .command⟩]
  | _ => []

/-- A step that the watchdog can be at. -/
def Pc.watches (cfg : Config) : Pc → Bool
  | .watch _ | .watchRules _ | .watchLoad _ | .watchReset _ | .watchWait _ _ | .watchGone _
  | .watchFlush _ => true
  | .watchFailopen _ => !cfg.failClosed
  | _ => false

/-- The daemon is gone: the supervisor does not run, and no process of the program does but
the reset that the watchdog has started; the watchdog is the only script. -/
structure Machine.Deserted (cfg : Config) (i : Nat) (pc : Pc) (m : Machine) : Prop where
  here : m.scripts[i]? = some pc
  watches : pc.watches cfg = true
  alone : ∀ j pc', m.scripts[j]? = some pc' → j ≠ i → pc' = .ended
  supervisor : m.supervisor = none
  procs : m.procs = pc.reset ∨ m.procs = []

/-- Nobody runs the program or gives a command to the service, and what the watchdog runs
succeeds. -/
def Quiet : Event → Prop
  | .call _ | .command | .byHand => False
  | .script _ ok => ok = true
  | _ => True

instance : (e : Event) → Decidable (Quiet e)
  | .call _ | .command | .byHand => .isFalse id
  | .script _ _ => inferInstanceAs (Decidable (_ = _))
  | .spawn | .bind _ | .exit _ | .supervisorExit | .squat _ | .setUdpDivert _ _ _ => .isTrue trivial

/-- A step of the watchdog, or the end of the process it waits for. -/
def Event.turn : Event → Bool
  | .script _ _ | .exit _ => true
  | _ => false

/-- Nothing diverts, and if the service is to fail closed nothing leaves. -/
def Machine.Healed (cfg : Config) (m : Machine) : Prop :=
  if cfg.failClosed then m.rules = .empty else m.rules ≠ .divert

/-- How many turns it takes. -/
def Machine.toGo (m : Machine) : Pc → Nat
  | .watchRules _ => 10
  | .watchLoad _ => 9
  | .watch w => 6 + (2 - w.misses)
  | .watchReset _ => 5
  | .watchWait _ _ => 3 + m.procs.length
  | .watchGone _ => 2
  | .watchFailopen _ | .watchFlush _ => 1
  | _ => 0

/-- Nothing diverts, and nothing is about to be loaded. -/
def Machine.Settled (cfg : Config) (m : Machine) (pc : Pc) : Prop :=
  m.Healed cfg ∧ pc.loading = false ∧ ∀ w, pc ≠ .watchRules w

section

variable {cfg : Config} {m m' : Machine} {pc pc' : Pc} {loads : List Load}

/-- A step of the watchdog. -/
theorem watch_step (hwatches : pc.watches cfg = true) (hsup : m.supervisor = none)
    (hprocs : m.procs = pc.reset ∨ m.procs = [])
    (h : pc.step cfg m true = some (m', pc', loads)) :
    pc'.watches cfg = true ∧ m'.scripts = m.scripts ∧ m'.supervisor = none ∧
      (m'.procs = pc'.reset ∨ m'.procs = []) ∧
      (m.Settled cfg pc → m'.Settled cfg pc') ∧
      (m'.Settled cfg pc' ∨ m'.toGo pc' < m.toGo pc) := by
  cases pc with
  | watch w =>
      have hnone : m.procs = [] := hprocs.elim id id
      have hrunning : m.running = false := by rw [Machine.running, hnone]; rfl
      simp only [Pc.step, hrunning] at h
      obtain ⟨rfl, rfl, -⟩ : m = m' ∧ _ = pc' ∧ _ := by simpa using h
      split_ifs with hmisses hreset
      · exact ⟨rfl, rfl, hsup, .inr hnone, fun hs => ⟨hs.1, rfl, by simp⟩,
          .inr (by simp only [Machine.toGo]; omega)⟩
      · exact ⟨rfl, rfl, hsup, .inr hnone, fun hs => ⟨hs.1, rfl, by simp⟩,
          .inr (by simp only [Machine.toGo]; omega)⟩
      · exact ⟨rfl, rfl, hsup, .inr hnone, fun hs => ⟨hs.1, rfl, by simp⟩,
          .inr (by simp only [Machine.toGo]; omega)⟩
  | watchRules w =>
      have hnone : m.procs = [] := hprocs.elim id id
      have hnot : ¬m.Settled cfg (.watchRules w) := fun hs => hs.2.2 w rfl
      simp only [Pc.step] at h
      split_ifs at h with hdivert hstranded <;> obtain ⟨rfl, rfl, -⟩ := by simpa using h
      · exact ⟨rfl, rfl, hsup, .inr hnone, fun hs => absurd hs hnot,
          .inr (by simp only [Machine.toGo]; omega)⟩
      · exact ⟨rfl, rfl, hsup, .inr hnone, fun hs => absurd hs hnot,
          .inr (by simp only [Machine.toGo]; omega)⟩
      · exact ⟨rfl, rfl, hsup, .inr hnone, fun hs => absurd hs hnot,
          .inr (by simp only [Machine.toGo]; omega)⟩
  | watchLoad w =>
      have hnone : m.procs = [] := hprocs.elim id id
      have hnot : ¬m.Settled cfg (.watchLoad w) := fun hs => by
        obtain ⟨-, hidle, -⟩ := hs
        cases hidle
      simp only [Pc.step] at h
      obtain ⟨rfl, rfl, -⟩ := by simpa using h
      exact ⟨rfl, rfl, hsup, .inr hnone, fun hs => absurd hs hnot,
        .inr (by simp only [Machine.toGo]; omega)⟩
  | watchReset w =>
      have hnone : m.procs = [] := hprocs.elim id id
      simp only [Pc.step] at h
      obtain ⟨rfl, rfl, -⟩ := by simpa using h
      have hlaunched : (m.launch .command).procs = [⟨m.next, .command⟩] := by
        rw [Machine.launch, hnone]
        rfl
      refine ⟨rfl, rfl, hsup, .inl hlaunched, fun hs => ⟨hs.1, rfl, by simp⟩, .inr ?_⟩
      change 3 + (m.launch .command).procs.length < 5
      rw [hlaunched]
      exact Nat.lt_succ_self 4
  | watchWait w pid =>
      simp only [Pc.step] at h
      split_ifs at h with halive
      obtain ⟨rfl, rfl, -⟩ := by simpa using h
      have hnone : m.procs = [] := by
        obtain hone | hnone := hprocs
        · rw [Machine.alive, hone] at halive
          simp [Pc.reset] at halive
        · exact hnone
      exact ⟨rfl, rfl, hsup, .inr hnone, fun hs => ⟨hs.1, rfl, by simp⟩,
        .inr (by simp only [Machine.toGo]; omega)⟩
  | watchGone w =>
      have hnone : m.procs = [] := hprocs.elim id id
      simp only [Pc.step] at h
      split_ifs at h with hclosed hsome hdivert <;> obtain ⟨rfl, rfl, -⟩ := by simpa using h
      · exact ⟨rfl, rfl, hsup, .inr hnone, fun hs => ⟨hs.1, rfl, by simp⟩, .inr (Nat.lt_succ_self 1)⟩
      · have hhealed : m.Healed cfg := by
          rw [Machine.Healed, if_pos hclosed]
          simpa using hsome
        exact ⟨rfl, rfl, hsup, .inr hnone, fun hs => ⟨hs.1, rfl, by simp⟩,
          .inl ⟨hhealed, rfl, by simp⟩⟩
      · exact ⟨by simpa [Pc.watches] using hclosed, rfl, hsup, .inr hnone,
          fun hs => ⟨hs.1, rfl, by simp⟩, .inr (Nat.lt_succ_self 1)⟩
      · have hhealed : m.Healed cfg := by
          rw [Machine.Healed, if_neg hclosed]
          simpa using hdivert
        exact ⟨rfl, rfl, hsup, .inr hnone, fun hs => ⟨hs.1, rfl, by simp⟩,
          .inl ⟨hhealed, rfl, by simp⟩⟩
  | watchFailopen w =>
      have hnone : m.procs = [] := hprocs.elim id id
      have hopen : ¬cfg.failClosed = true := by simpa [Pc.watches] using hwatches
      simp only [Pc.step] at h
      obtain ⟨rfl, rfl, -⟩ := by simpa using h
      have hsettled :
          Machine.Settled cfg { m with rules := .failopen } (.watch { w with misses := 0 }) :=
        ⟨by rw [Machine.Healed, if_neg hopen]; simp, rfl, by simp⟩
      exact ⟨rfl, rfl, hsup, .inr hnone, fun _ => hsettled, .inl hsettled⟩
  | watchFlush w =>
      have hnone : m.procs = [] := hprocs.elim id id
      simp only [Pc.step] at h
      obtain ⟨rfl, rfl, -⟩ := by simpa using h
      have hsettled : Machine.Settled cfg (m.flush true) (.watch { w with misses := 0 }) :=
        ⟨by rw [Machine.Healed]; split <;> simp [Machine.flush], rfl, by simp⟩
      exact ⟨rfl, rfl, hsup, .inr hnone, fun _ => hsettled, .inl hsettled⟩
  | _ => cases hwatches

/-- No daemon is left. -/
theorem Machine.Deserted.no_daemon {i : Nat} (h : m.Deserted cfg i pc) {pid : Nat} {holds : Bool} :
    ⟨pid, .daemon holds⟩ ∉ m.procs := by
  intro hmem
  obtain hprocs | hprocs := h.procs
  · rw [hprocs] at hmem
    cases pc <;> simp [Pc.reset] at hmem
  · rw [hprocs] at hmem
    cases hmem

/-- Each turn brings the end nearer, and nothing else does anything. -/
theorem Machine.Deserted.step {i : Nat} {e : Event} (h : m.Deserted cfg i pc) (hquiet : Quiet e)
    (hstep : step cfg m e = some (m', loads)) :
    ∃ pc', m'.Deserted cfg i pc' ∧ (m.Settled cfg pc → m'.Settled cfg pc') ∧
      (m'.Settled cfg pc' ∨ m'.toGo pc' + (if e.turn then 1 else 0) ≤ m.toGo pc) := by
  cases e with
  | call c | command | byHand => exact absurd hquiet id
  | script j ok =>
      obtain ⟨pcj, m₁, pc', hj, hpc, rfl⟩ := step_script hstep
      by_cases hji : j = i
      · obtain rfl := hji
        obtain rfl := Option.some.inj (hj.symm.trans h.here)
        obtain rfl : ok = true := hquiet
        obtain ⟨hwatches, hscripts, hsup, hprocs, hkeeps, hless⟩ :=
          watch_step h.watches h.supervisor h.procs hpc
        have hlt : j < m.scripts.length := (List.getElem?_eq_some_iff.mp hj).1
        refine ⟨pc', ⟨?_, hwatches, fun k pck hk hkj => ?_, hsup, hprocs⟩, hkeeps, hless⟩
        · rw [hscripts]
          exact List.getElem?_set_self hlt
        · rw [hscripts, List.getElem?_set_ne (Ne.symm hkj)] at hk
          exact h.alone k pck hk hkj
      · obtain rfl := h.alone j pcj hj hji
        cases hpc
  | spawn =>
      rw [Service.step, h.supervisor] at hstep
      cases hstep
  | bind pid =>
      rw [Service.step, if_neg fun hbind => h.no_daemon hbind.1] at hstep
      cases hstep
  | setUdpDivert pid divert ok =>
      rw [Service.step, if_pos h.no_daemon] at hstep
      cases hstep
  | supervisorExit =>
      obtain ⟨rfl, -⟩ := by simpa [Service.step] using hstep
      exact ⟨pc, ⟨h.here, h.watches, h.alone, rfl, h.procs⟩, id, .inr (Nat.le_refl _)⟩
  | squat b =>
      rw [Service.step] at hstep
      split_ifs at hstep
      obtain ⟨rfl, -⟩ := by simpa using hstep
      exact ⟨pc, ⟨h.here, h.watches, h.alone, h.supervisor, h.procs⟩, id, .inr (Nat.le_refl _)⟩
  | exit pid =>
      rw [Service.step] at hstep
      split_ifs at hstep with halive
      obtain ⟨rfl, -⟩ := by simpa using hstep
      have hreset : m.procs = pc.reset := by
        obtain hprocs | hprocs := h.procs
        · exact hprocs
        · rw [Machine.alive, hprocs] at halive
          cases halive
      cases pc with
      | watchWait w waited =>
          rw [Machine.alive, hreset] at halive
          have hpid : waited = pid := by simpa [Pc.reset] using halive
          have hnone : (m.exit pid).procs = [] := by
            rw [Machine.exit, hreset, Pc.reset, hpid]
            simp
          refine ⟨.watchWait w waited, ⟨h.here, h.watches, h.alone, h.supervisor, .inr hnone⟩,
            fun hs => hs, .inr ?_⟩
          change 3 + (m.exit pid).procs.length + 1 ≤ 3 + m.procs.length
          rw [hnone, hreset]
          exact Nat.le_refl _
      | _ =>
          rw [Machine.alive, hreset] at halive
          cases halive

end

/-! ## the result -/

/-- Without `anchor.conf` nothing is diverted. -/
theorem not_diverted {rules : Ruleset} (h : rules ≠ .divert) (udp : Bool) (p : Pf.Packet) :
    (Pf.evaluate rules udp p).divert = none := by
  rw [Pf.evaluate_eq, Pf.meaning]
  cases rules with
  | divert => exact absurd rfl h
  | empty | failopen =>
      simp only [Pf.leaving, Pf.arriving]
      split_ifs <;> first | rfl | simp_all

theorem Machine.Healed.not_divert {cfg : Config} {m : Machine} (h : m.Healed cfg) :
    m.rules ≠ .divert := by
  unfold Machine.Healed at h
  split at h
  · rw [h]
    simp
  · exact h

variable {cfg : Config} {i : Nat} {pc : Pc} {m m' : Machine} {es : List Event}

theorem Machine.Deserted.run (h : m.Deserted cfg i pc)
    (hrun : exec (Service.step cfg) (fun _ => Quiet) m es = some m') :
    ∃ pc', m'.Deserted cfg i pc' ∧ (m.Settled cfg pc → m'.Settled cfg pc') ∧
      (m'.Settled cfg pc' ∨ m'.toGo pc' + es.countP Event.turn ≤ m.toGo pc) := by
  induction es generalizing m pc with
  | nil =>
      obtain rfl := Option.some.inj hrun
      exact ⟨pc, h, id, .inr (Nat.le_refl _)⟩
  | cons e es ih =>
      rw [exec] at hrun
      split_ifs at hrun with hquiet
      cases hstep : Service.step cfg m e with
      | none => simp [hstep] at hrun
      | some r =>
          obtain ⟨m₁, loads⟩ := r
          simp only [hstep] at hrun
          obtain ⟨pc₁, h₁, hkeeps₁, hless₁⟩ := h.step hquiet hstep
          obtain ⟨pc', h', hkeeps', hless'⟩ := ih h₁ hrun
          refine ⟨pc', h', fun hs => hkeeps' (hkeeps₁ hs), ?_⟩
          obtain hsettled | hless₁ := hless₁
          · exact .inl (hkeeps' hsettled)
          · refine hless'.imp_right fun hless' => ?_
            rw [List.countP_cons]
            omega

theorem Machine.Deserted.toGo_le (h : m.Deserted cfg i pc) : m.toGo pc ≤ 10 := by
  cases pc with
  | watchWait w pid =>
      have hlen : m.procs.length ≤ 1 := by
        obtain hprocs | hprocs := h.procs <;> rw [hprocs]
        · exact Nat.le_refl _
        · exact Nat.zero_le _
      simp only [Machine.toGo]
      omega
  | watch w => simp only [Machine.toGo]; omega
  | _ => simp [Machine.toGo]

theorem Machine.Deserted.toGo_pos (h : m.Deserted cfg i pc) : 0 < m.toGo pc := by
  have hwatches := h.watches
  cases pc <;> first | (cases hwatches; done) | (simp only [Machine.toGo]; omega)

/-- The watchdog can take its step, or what it waits for can end. -/
theorem Machine.Deserted.moves (h : m.Deserted cfg i pc) :
    ∃ e : Event, e.turn ∧ Quiet e ∧ (Service.step cfg m e).isSome := by
  have hscript : (pc.step cfg m true).isSome → (Service.step cfg m (.script i true)).isSome := by
    intro hsome
    obtain ⟨⟨m₁, pc', loads⟩, hpc⟩ := Option.isSome_iff_exists.mp hsome
    simp [Service.step, h.here, hpc]
  cases hpc : pc.step cfg m true with
  | some r => exact ⟨.script i true, rfl, rfl, hscript (by rw [hpc]; rfl)⟩
  | none =>
      -- only the reset can keep the watchdog waiting
      have hwatches := h.watches
      cases pc with
      | watchWait w pid =>
          simp only [Pc.step] at hpc
          split_ifs at hpc with halive
          exact ⟨.exit pid, rfl, trivial, by rw [Service.step, if_pos halive]; rfl⟩
      | watch w | watchRules w | watchLoad w | watchReset w | watchGone w | watchFailopen w
      | watchFlush w =>
          simp only [Pc.step] at hpc
          repeat' split at hpc
          all_goals cases hpc
      | _ => cases hwatches

/-- **The watchdog heals.**  Once the daemon is gone and nobody starts anything, wherever the
watchdog is and whatever is loaded: there is always a turn to take, and after ten turns the
anchor diverts no packet to the socket that nobody holds, and is empty if the service is to
fail closed; so it stays. -/
theorem watchdog_heals (h : m.Deserted cfg i pc)
    (hrun : exec (Service.step cfg) (fun _ => Quiet) m es = some m') :
    (∃ e : Event, e.turn ∧ Quiet e ∧ (Service.step cfg m' e).isSome) ∧
      (10 ≤ es.countP Event.turn →
        (∀ udp p, (Pf.evaluate m'.rules udp p).divert = none) ∧
          (cfg.failClosed = true → m'.rules = .empty)) := by
  obtain ⟨pc', h', -, hless⟩ := h.run hrun
  refine ⟨h'.moves, fun hturns => ?_⟩
  have hhealed : m'.Healed cfg := by
    obtain hsettled | hless := hless
    · exact hsettled.1
    · have hle := h.toGo_le
      have hpos := h'.toGo_pos
      omega
  refine ⟨not_diverted hhealed.not_divert, fun hclosed => ?_⟩
  rwa [Machine.Healed, if_pos hclosed] at hhealed

/-- The daemon has died for good with `anchor.conf` loaded, and the watchdog is about to look. -/
theorem watchdog_heals_open :
    ∃ m m' : Machine, m.rules = .divert ∧ m.Deserted ⟨false, true⟩ 1 (.watch {}) ∧
      (∀ udp p, (Pf.evaluate m'.rules udp p).divert = none) ∧ m'.rules = .failopen := by
  let m : Machine := { Machine.boot with rules := .divert, scripts := [.ended, .watch {}], next := 3 }
  have halone : ∀ j pc', m.scripts[j]? = some pc' → j ≠ 1 → pc' = .ended := by
    rintro (_ | _ | j) pc' hj hne
    · exact (Option.some.inj hj).symm
    · exact absurd rfl hne
    · cases hj
  have h : m.Deserted ⟨false, true⟩ 1 (.watch {}) := ⟨rfl, rfl, halone, rfl, .inr rfl⟩
  let turn : Event := .script 1 true
  have hexec : exec (step ⟨false, true⟩) (fun _ => Quiet) m
      [turn, turn, turn, turn, .exit 3, turn, turn, turn, turn, turn] =
        some { m with rules := .failopen, scripts := [.ended, .watch ⟨2, 0, true⟩], next := 4 } := by
    decide
  exact ⟨m, _, rfl, h, ((watchdog_heals h hexec).2 (by decide)).1, rfl⟩

end Pfsnitch.Service
