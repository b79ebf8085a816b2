import Pfsnitch.Daemon.Frame

/-!
# Pfsnitch.Daemon.Shape

The lists of effects that can still be to come, in each phase of the main
thread.  There are finitely many (`Pc.shapes`), so what a list of pending
effects can hold is settled by looking through them.
-/

namespace Pfsnitch

open Lib

/-- What can be to come once a tick has reconciled. -/
def lateShapes : List (List Op) := [.openReader] :: enable.tails ++ teardown.tails

/-- What can be to come in a tick, before and after a reload. -/
def tickShapes : Bool → List (List Op)
  | false => tickOps.tails ++
      [[.flushVerdicts, .checkMtime, .reconcile], [.reload, .reconcile]] ++ lateShapes
  | true => (teardown ++ [Op.openBackend, .clearDecided, .flushVerdicts, .reconcile]).tails ++
      [[.flushVerdicts, .clearDecided, .flushVerdicts, .reconcile]] ++ lateShapes

/-- What can be to come at start-up. -/
def startShapes : List (List Op) := startOps.tails ++ [[.flushVerdicts, .readMtime, .bind]]

/-- What can be to come after a packet whose flow was learned. -/
def learnShapes : List (List Op) := [Op.readMtime].tails

/-- What can be to come at shutdown. -/
def stopShapes : List (List Op) := (stopOps true).tails ++ (stopOps false).tails

/-- What can be to come in a phase. -/
def Pc.shapes : Pc → List (List Op)
  | .starting _ => startShapes
  | .ticking reloaded _ => tickShapes reloaded
  | .learning _ => learnShapes
  | .stopping _ => stopShapes
  | .top | .answers | .upcalls | .timers | .recv => [[]]

/-- What can be to come at all. -/
def allShapes : List (List Op) :=
  startShapes ++ tickShapes false ++ tickShapes true ++ learnShapes ++ stopShapes

theorem Pc.shapes_subset (pc : Pc) : pc.shapes ⊆ allShapes := by
  cases pc with
  | ticking reloaded ops =>
      cases reloaded
      · exact fun _ h => List.mem_append_left _ (List.mem_append_left _
          (List.mem_append_left _ (List.mem_append_right _ h)))
      · exact fun _ h => List.mem_append_left _ (List.mem_append_left _ (List.mem_append_right _ h))
  | starting ops =>
      exact fun _ h => List.mem_append_left _ (List.mem_append_left _
        (List.mem_append_left _ (List.mem_append_left _ h)))
  | learning ops => exact fun _ h => List.mem_append_left _ (List.mem_append_right _ h)
  | stopping ops => exact fun _ h => List.mem_append_right _ h
  | _ => decide

/-- The pending effects are among those of the phase. -/
def Shaped (w : World) : Prop := ∀ d, w.daemon = some d → d.pc.ops ∈ d.pc.shapes

/-- It is start-up that loads the policy, not a tick. -/
theorem not_loadPolicy_of_ticking {pc : Pc} {reloaded : Bool} {ops rest : List Op} {op : Op}
    (hpc : pc = .ticking reloaded ops) (hshape : pc.ops ∈ pc.shapes) (hops : pc.ops = op :: rest) :
    op ≠ .loadPolicy := by
  have hhead : ∀ r, ∀ ops ∈ tickShapes r, ops.head? ≠ some .loadPolicy := by decide
  rintro rfl
  refine hhead reloaded pc.ops ?_ ?_
  · rwa [hpc] at hshape ⊢
  · rw [hops, List.head?_cons]

/-- An effect and what it asks for lead from shape to shape. -/
theorem Pc.Effect.shapes {pc : Pc} {op : Op} {rest extra : List Op} {next : List Op → Pc}
    (h : pc.Effect op rest next) (hpc : pc.ops ∈ pc.shapes) (hextra : extra ∈ op.extras) :
    (next (extra ++ rest)).ops ∈ (next (extra ++ rest)).shapes := by
  have hstart : ∀ ops ∈ startShapes, ∀ op ∈ ops.head?, ∀ e ∈ op.extras,
      e ++ ops.tail ∈ startShapes := by decide
  have hlearn : ∀ ops ∈ learnShapes, ∀ op ∈ ops.head?, ∀ e ∈ op.extras,
      e ++ ops.tail ∈ learnShapes := by decide
  have hstop : ∀ ops ∈ stopShapes, ∀ op ∈ ops.head?, ∀ e ∈ op.extras,
      e ++ ops.tail ∈ stopShapes := by decide
  have htick : ∀ r, ∀ ops ∈ tickShapes r, ∀ op ∈ ops.head?, ∀ e ∈ op.extras,
      e ++ ops.tail ∈ tickShapes (r || op = .reload) := by decide
  cases h with
  | starting op rest => exact hstart _ hpc op rfl extra hextra
  | ticking r op rest => exact htick r _ hpc op rfl extra hextra
  | learning op rest => exact hlearn _ hpc op rfl extra hextra
  | stopping op rest => exact hstop _ hpc op rfl extra hextra

variable [Casing]

/-- Every step keeps the pending effects in shape. -/
theorem step_shaped {w w' : World} {ev : Event} {o : List Output} (h : w.step ev = some (w', o))
    (hinv : Shaped w) : Shaped w' := by
  obtain ⟨inp, d, rfl, hd, hmain⟩ | hout := step_cases h
  · have hd' := hinv d hd
    intro d₁ hd₁
    cases hmain with
    | moves hm =>
        obtain rfl := Option.some.inj hd₁
        cases hm with
        | shutdown =>
            change stopOps d.upcallOn ∈ stopShapes
            cases d.upcallOn <;> decide
        | tick =>
            change tickOps ∈ tickShapes false
            decide
        | _ => exact List.mem_singleton_self []
    | exits hpc => cases hd₁
    | answer hpc hrx hdrain =>
        obtain rfl := Option.some.inj hd₁
        obtain ⟨_, _, _, _, -, -, -, rfl⟩ := drainAnswer_cases hdrain
        exact hd'
    | upcall hpc hurx hdrain =>
        obtain rfl := Option.some.inj hd₁
        cases drainUpcall_cases hdrain with
        | resolved hv hr => exact hd'
        | asked hpath hv hraise =>
            obtain ⟨⟨_, _, rfl⟩, -⟩ := raise_cases hraise
            exact hd'
    | effect hpc hop =>
        obtain ⟨d₂, rfl, rfl⟩ := Option.map_eq_some_iff.mp hd₁
        exact hpc.shapes hd' (Op.extra_mem_extras hop)
    | packet hpc hpkt hr =>
        obtain rfl := Option.some.inj hd₁
        have hcase := hr ▸ handlePacket_cases inp w.os d _ _
        obtain hnext | hnext := hcase.next <;> rw [hnext]
        · exact List.mem_singleton_self []
        · exact List.mem_cons_self
  · obtain hnone | ⟨fallback, -, hnew⟩ | ⟨d, d', hd, hd', _, _, _, _, _, rfl⟩ := hout.daemon
    · intro d hd
      simp [hnone] at hd
    · intro d hd
      obtain rfl := Option.some.inj (hnew.symm.trans hd)
      change startOps ∈ startShapes
      decide
    · intro d₁ hd₁
      obtain rfl := Option.some.inj (hd'.symm.trans hd₁)
      exact hinv d hd

theorem reachable_shaped {ok : World → Event → Prop} {w : World} (h : Reachable ok w) :
    Shaped w := by
  obtain ⟨w₀, hinit, hrun⟩ := h
  exact hrun.invariant hinit.no_daemon fun _ _ _ _ hinv _ hstep => step_shaped hstep hinv

end Pfsnitch
