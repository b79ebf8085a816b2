import Pfsnitch.Daemon.Cases
import Pfsnitch.Daemon.System

/-!
# Pfsnitch.Daemon.Frame

What a step can be (`step_cases`), and what it leaves alone.  An event around
the main thread does not touch the main thread's variables
(`Outside.daemon`); a step of the main thread is one of six things
(`MainStep`), and an effect changes only what `Op.Keeps` does not list.
-/

namespace Pfsnitch

open Lib

variable [Casing]

/-! ## events around the main thread -/

omit [Casing] in
/-- Two states of a daemon that differ at most in its channels and threads. -/
def SameMain (d d' : Daemon) : Prop :=
  ∃ shutdown rx urx prompts readers, d' = { d with shutdown, rx, urx, prompts, readers }

/-- What an event around the main thread can do. -/
inductive Outside (w : World) : Event → World → List Output → Prop
  | loadModule (h : w.os.kmod = none) :
      Outside w .loadModule { w with os := { w.os with kmod := some {}, gen := w.os.gen + 1 } } []
  | unloadModule : Outside w .unloadModule { w with os := { w.os with kmod := none } } []
  | startDaemon {fallback : Mode} (h : w.daemon = none) :
      Outside w (.startDaemon fallback) { w with daemon := some (.new fallback w.os.now) } []
  | crash {d : Daemon} (h : w.daemon = some d) : Outside w .crash ⟨closeAll w.os d, none⟩ []
  | signal {d : Daemon} (h : w.daemon = some d) :
      Outside w .signal { w with daemon := some { d with shutdown := true } } []
  | promptDone {d : Daemon} {i : Nat} {ans : Answer} {p : Prompt} (h : w.daemon = some d)
      (hp : d.prompts[i]? = some p) :
      Outside w (.promptDone i ans) { w with daemon := some { d with
        prompts := d.prompts.eraseIdx i, rx := d.rx ++ [(ans, p.pending)] } } []
  | readerEnd {d : Daemon} {i : Nat} {r : Reader} {ev : Event} (h : w.daemon = some d)
      (hr : d.readers[i]? = some r) (hidle : r.holding = none) :
      Outside w ev (dropReader w.os d i r) []
  | readerRead {d : Daemon} {i : Nat} {r : Reader} {k k' : KMod} {q : Req} {fault : Bool}
      (h : w.daemon = some d) (hr : d.readers[i]? = some r) (hreach : w.os.reach r.gen = some k)
      (hread : k.read = (.event q, k')) (hidle : r.holding = none) :
      Outside w (.readerRead i fault) ⟨{ w.os with kmod := some k' },
        some { d with readers := d.readers.set i { r with holding := some q.event } }⟩ []
  | readerSend {d : Daemon} {i : Nat} {r : Reader} {ev : KernEvent} (h : w.daemon = some d)
      (hr : d.readers[i]? = some r) (hev : r.holding = some ev) :
      Outside w (.readerSend i) { w with daemon := some { d with
        readers := d.readers.set i { r with holding := none }, urx := d.urx ++ [ev] } } []
  | noHook {so : Socket} {sa : SockAddr} {memory : Bool} (h : w.os.kmod = none) :
      Outside w (.hook so sa memory) w [.hook .pass]
  | hook {so : Socket} {sa : SockAddr} {memory : Bool} {k k' : KMod} {r : HookResult}
      (h : w.os.kmod = some k) (hr : k.checkConnect so sa memory (w.os.now / 1000) = (r, k')) :
      Outside w (.hook so sa memory) { w with os := { w.os with kmod := some k' } } [.hook r]
  | editPolicy {file : Option PolicyFile} :
      Outside w (.editPolicy file) { w with os := { w.os with policy := file } } []
  | changeEnv {env : Env} : Outside w (.changeEnv env) { w with os := { w.os with env } } []
  | wait {ms : Nat} : Outside w (.wait ms) { w with os := { w.os with now := w.os.now + ms } } []
  | pfAnchor {loaded : Bool} :
      Outside w (.pfAnchor loaded) { w with os := { w.os with udpdivert := loaded } } []
  | setFailmode {m : FailMode} : Outside w (.setFailmode m)
      { w with os := w.os.mapKmod fun k => { k with failmode := m } } []
  | kernelReset : Outside w .kernelReset
      { w with os := w.os.mapKmod fun k => (k.upcallSet false).verdictFlush } []

omit [Casing] in
/-- A reader that returns from `read` ends, or holds the next request. -/
theorem readerRead_cases {os : Os} {d : Daemon} {i : Nat} {fault : Bool} {w : World}
    (h : readerRead os d i fault = some w) :
    ∃ r, d.readers[i]? = some r ∧ r.holding = none ∧
      (w = dropReader os d i r ∨ ∃ k q k', os.reach r.gen = some k ∧ k.read = (.event q, k') ∧
        w = ⟨{ os with kmod := some k' },
          some { d with readers := d.readers.set i { r with holding := some q.event } }⟩) := by
  simp only [readerRead] at h
  split at h
  · cases h
  · rename_i r hr
    split at h
    · cases h
    · rename_i hidle
      refine ⟨r, hr, by simpa using (not_or.mp hidle).2, ?_⟩
      split at h
      · exact .inl (Option.some.inj h).symm
      · rename_i k hk
        split at h
        · exact .inl (Option.some.inj h).symm
        · cases h
        · rename_i q k' hread
          split at h
          · exact .inl (Option.some.inj h).symm
          · exact .inr ⟨k, q, k', hk, hread, (Option.some.inj h).symm⟩

/-- Every event around the main thread is in the table. -/
theorem outside_of_step {w w' : World} {ev : Event} {o : List Output}
    (h : w.step ev = some (w', o)) (hev : ∀ inp, ev ≠ .daemon inp) : Outside w ev w' o := by
  cases ev with
  | daemon inp => exact absurd rfl (hev inp)
  | loadModule =>
      simp only [World.step] at h
      split at h
      · rename_i hk
        obtain ⟨rfl, rfl⟩ := Prod.mk.inj (Option.some.inj h)
        exact .loadModule hk
      · cases h
  | unloadModule =>
      obtain ⟨_, -, h⟩ := Option.map_eq_some_iff.mp h
      obtain ⟨rfl, rfl⟩ := Prod.mk.inj h
      exact .unloadModule
  | startDaemon fallback =>
      simp only [World.step] at h
      split at h
      · rename_i hd
        obtain ⟨rfl, rfl⟩ := Prod.mk.inj (Option.some.inj h)
        exact .startDaemon hd
      · cases h
  | crash =>
      obtain ⟨_, hd, h⟩ := Option.map_eq_some_iff.mp h
      obtain ⟨rfl, rfl⟩ := Prod.mk.inj h
      exact .crash hd
  | signal =>
      obtain ⟨_, hd, h⟩ := Option.map_eq_some_iff.mp h
      obtain ⟨rfl, rfl⟩ := Prod.mk.inj h
      exact .signal hd
  | promptDone i ans =>
      obtain ⟨_, hd, h⟩ := Option.bind_eq_some_iff.mp h
      obtain ⟨_, hd', h⟩ := Option.map_eq_some_iff.mp h
      obtain ⟨_, hp, rfl⟩ := Option.map_eq_some_iff.mp hd'
      obtain ⟨rfl, rfl⟩ := Prod.mk.inj h
      exact .promptDone hd hp
  | readerRead i fault =>
      obtain ⟨_, hd, h⟩ := Option.bind_eq_some_iff.mp h
      obtain ⟨_, hw₁, h⟩ := Option.map_eq_some_iff.mp h
      obtain ⟨rfl, rfl⟩ := Prod.mk.inj h
      obtain ⟨_, hr, hidle, rfl | ⟨_, _, _, hreach, hread, rfl⟩⟩ := readerRead_cases hw₁
      · exact .readerEnd hd hr hidle
      · exact .readerRead hd hr hreach hread hidle
  | readerSend i =>
      obtain ⟨_, hd, h⟩ := Option.bind_eq_some_iff.mp h
      obtain ⟨_, hd', h⟩ := Option.map_eq_some_iff.mp h
      obtain ⟨rfl, rfl⟩ := Prod.mk.inj h
      simp only [readerSend] at hd'
      split at hd'
      · rename_i hr
        obtain ⟨_, hev, rfl⟩ := Option.map_eq_some_iff.mp hd'
        exact .readerSend hd hr hev
      · cases hd'
  | readerExit i =>
      obtain ⟨_, hd, h⟩ := Option.bind_eq_some_iff.mp h
      obtain ⟨_, hw₁, h⟩ := Option.map_eq_some_iff.mp h
      obtain ⟨rfl, rfl⟩ := Prod.mk.inj h
      simp only [readerExit] at hw₁
      split at hw₁
      · rename_i hr
        split_ifs at hw₁ with hidle
        obtain rfl := Option.some.inj hw₁
        exact .readerEnd hd hr hidle.2
      · cases hw₁
  | hook so sa memory =>
      simp only [World.step, World.hook] at h
      split at h <;> obtain ⟨rfl, rfl⟩ := Prod.mk.inj (Option.some.inj h)
      · exact .noHook ‹_›
      · exact .hook ‹_› rfl
  | editPolicy file | changeEnv env | wait ms | pfAnchor loaded | setFailmode m | kernelReset =>
      obtain ⟨rfl, rfl⟩ := Prod.mk.inj (Option.some.inj h)
      constructor

omit [Casing] in
/-- An event around the main thread leaves the main thread's variables alone, or
the daemon starts, or it is gone. -/
theorem Outside.daemon {w w' : World} {ev : Event} {o : List Output} (h : Outside w ev w' o) :
    w'.daemon = none ∨
      (∃ fallback, w.daemon = none ∧ w'.daemon = some (.new fallback w.os.now)) ∨
      ∃ d d', w.daemon = some d ∧ w'.daemon = some d' ∧ SameMain d d' := by
  cases h with
  | startDaemon h => exact .inr (.inl ⟨_, h, rfl⟩)
  | crash => exact .inl rfl
  | signal h | promptDone h | readerEnd h | readerRead h | readerSend h =>
      exact .inr (.inr ⟨_, _, h, rfl, _, _, _, _, _, rfl⟩)
  | loadModule | unloadModule | noHook | hook | editPolicy | changeEnv | wait | pfAnchor |
    setFailmode | kernelReset =>
      cases w.daemon with
      | none => exact .inl rfl
      | some d => exact .inr (.inr ⟨d, d, rfl, rfl, _, _, _, _, _, rfl⟩)

omit [Casing] in
theorem closeAll_frame (os : Os) (d : Daemon) : os.SameRest (closeAll os d) := by
  unfold closeAll
  split
  · exact ⟨_, rfl⟩
  · exact .refl os

/-! ## steps of the main thread -/

omit [Casing] in
/-- How the main thread moves on without an effect. -/
inductive Moves (os : Os) (d : Daemon) : Pc → Nat → Prop
  | started (h : d.pc = .starting []) : Moves os d .top d.lastCheck
  | shutdown (h : d.pc = .top) (hs : d.shutdown = true) :
      Moves os d (.stopping (stopOps d.upcallOn)) d.lastCheck
  | drain (h : d.pc = .top) (hs : d.shutdown = false) : Moves os d .answers d.lastCheck
  | answered (h : d.pc = .answers) (hrx : d.rx = []) : Moves os d .upcalls d.lastCheck
  | asked (h : d.pc = .upcalls) (hurx : d.urx = []) : Moves os d .timers d.lastCheck
  | tick (h : d.pc = .timers) : Moves os d (.ticking false tickOps) os.now
  | noTick (h : d.pc = .timers) : Moves os d .recv d.lastCheck
  | ticked {reloaded : Bool} (h : d.pc = .ticking reloaded []) : Moves os d .recv d.lastCheck
  | quiet (h : d.pc = .recv) : Moves os d .top d.lastCheck
  | learned (h : d.pc = .learning []) : Moves os d .top d.lastCheck

omit [Casing] in
/-- The effect that is next, those after it, and where the thread goes with
what is then still to do. -/
inductive Pc.Effect : Pc → Op → List Op → (List Op → Pc) → Prop
  | starting (op : Op) (rest : List Op) : Pc.Effect (.starting (op :: rest)) op rest .starting
  | ticking (reloaded : Bool) (op : Op) (rest : List Op) :
      Pc.Effect (.ticking reloaded (op :: rest)) op rest (.ticking (reloaded || op = .reload))
  | learning (op : Op) (rest : List Op) : Pc.Effect (.learning (op :: rest)) op rest .learning
  | stopping (op : Op) (rest : List Op) : Pc.Effect (.stopping (op :: rest)) op rest .stopping

omit [Casing] in
/-- The effects that are still to come. -/
def Pc.ops : Pc → List Op
  | .starting ops | .ticking _ ops | .learning ops | .stopping ops => ops
  | .top | .answers | .upcalls | .timers | .recv => []

/-- After a packet nothing is to be done, or the watermark is. -/
theorem PacketCase.next_ops {inp : Input} {os : Os} {d : Daemon} {pkt : Packet} {src : Sockaddr}
    {r : Handled} (h : PacketCase inp os d pkt src r) {op : Op} (hop : op ∈ r.next.ops) :
    op = .readMtime := by
  obtain hnext | hnext := h.next <;> rw [hnext] at hop
  · cases hop
  · exact List.mem_singleton.mp hop

omit [Casing] in
/-- Past start-up. -/
def Pc.inLoop : Pc → Bool
  | .starting _ => false
  | _ => true

omit [Casing] in
theorem Pc.Effect.ops {pc : Pc} {op : Op} {rest : List Op} {next : List Op → Pc}
    (h : pc.Effect op rest next) : pc.ops = op :: rest ∧ ∀ ops, (next ops).ops = ops := by
  cases h <;> exact ⟨rfl, fun _ => rfl⟩

omit [Casing] in
/-- Another effect that was to be done still is. -/
theorem Pc.Effect.mem_next {pc : Pc} {op other : Op} {rest extra : List Op}
    {next : List Op → Pc} (h : pc.Effect op rest next) (hne : op ≠ other)
    (hmem : other ∈ pc.ops) : other ∈ (next (extra ++ rest)).ops := by
  rw [h.ops.1] at hmem
  rw [h.ops.2]
  exact List.mem_append_right _ ((List.mem_cons.mp hmem).resolve_left (Ne.symm hne))

omit [Casing] in
/-- And unless it is asked for, it is to be done only if it was. -/
theorem Pc.Effect.mem_iff {pc : Pc} {op other : Op} {rest extra : List Op} {next : List Op → Pc}
    (h : pc.Effect op rest next) (hne : op ≠ other) (hextra : other ∉ extra) :
    other ∈ (next (extra ++ rest)).ops ↔ other ∈ pc.ops := by
  refine ⟨fun hmem => ?_, h.mem_next hne⟩
  rw [h.ops.2, List.mem_append, or_iff_right hextra] at hmem
  rw [h.ops.1]
  exact List.mem_cons_of_mem _ hmem

omit [Casing] in
/-- A move comes when nothing is to be done, and leads to a tick's or the
shutdown's effects at most. -/
theorem Moves.ops {os : Os} {d : Daemon} {pc : Pc} {lastCheck : Nat} (h : Moves os d pc lastCheck) :
    d.pc.ops = [] ∧ (pc.ops = [] ∨ pc.ops = tickOps ∨ pc.ops = stopOps d.upcallOn) := by
  cases h <;> simp_all [Pc.ops]

/-- What a step of the main thread can be. -/
inductive MainStep (inp : Input) (os : Os) (d : Daemon) : World → List Output → Prop
  | moves {pc : Pc} {lastCheck : Nat} (h : Moves os d pc lastCheck) :
      MainStep inp os d ⟨os, some { d with pc, lastCheck }⟩ []
  | exits (h : d.pc = .stopping []) : MainStep inp os d ⟨closeAll os d, none⟩ []
  | answer {ans : Answer} {p : Pending} {rx : List (Answer × Pending)} {os' : Os} {d' : Daemon}
      (hpc : d.pc = .answers) (hrx : d.rx = (ans, p) :: rx)
      (h : drainAnswer inp os { d with rx } ans p = (os', d')) :
      MainStep inp os d ⟨os', some d'⟩ []
  | upcall {ev : KernEvent} {urx : List KernEvent} {os' : Os} {d' : Daemon} {o : List Output}
      (hpc : d.pc = .upcalls) (hurx : d.urx = ev :: urx)
      (h : drainUpcall inp os { d with urx } ev = (os', d', o)) :
      MainStep inp os d ⟨os', some d'⟩ o
  | effect {op : Op} {rest extra : List Op} {next : List Op → Pc} {os' : Os} {d' : Option Daemon}
      (hpc : d.pc.Effect op rest next) (h : op.run inp os d = (os', d', extra)) :
      MainStep inp os d ⟨os', d'.map fun d => { d with pc := next (extra ++ rest) }⟩ []
  | packet {pkt : Packet} {src : Sockaddr} {r : Handled} (hpc : d.pc = .recv)
      (hpkt : inp.packet = some (pkt, src)) (h : handlePacket inp os d pkt src = r) :
      MainStep inp os d ⟨r.os, some { r.daemon with pc := r.next }⟩ r.outs

theorem mainStep_of_step {inp : Input} {os : Os} {d : Daemon} {w' : World} {o : List Output}
    (h : d.step inp os = (w', o)) : MainStep inp os d w' o := by
  simp only [Daemon.step] at h
  split at h
  case h_1 hpc =>
    obtain ⟨rfl, rfl⟩ := Prod.mk.inj h
    exact .moves (.started hpc)
  case h_2 op rest hpc =>
    obtain ⟨rfl, rfl⟩ := Prod.mk.inj h
    exact .effect (hpc ▸ .starting op rest) rfl
  case h_3 hpc =>
    split at h <;> rename_i hs <;> obtain ⟨rfl, rfl⟩ := Prod.mk.inj h
    · exact .moves (.shutdown hpc hs)
    · exact .moves (.drain hpc (Bool.not_eq_true _ ▸ hs))
  case h_4 hpc =>
    split at h
    · rename_i hrx
      obtain ⟨rfl, rfl⟩ := Prod.mk.inj h
      exact .moves (.answered hpc hrx)
    · rename_i hrx
      obtain ⟨rfl, rfl⟩ := Prod.mk.inj h
      exact .answer hpc hrx rfl
  case h_5 hpc =>
    split at h
    · rename_i hurx
      obtain ⟨rfl, rfl⟩ := Prod.mk.inj h
      exact .moves (.asked hpc hurx)
    · rename_i hurx
      obtain ⟨rfl, rfl⟩ := Prod.mk.inj h
      exact .upcall hpc hurx rfl
  case h_6 hpc =>
    split at h <;> obtain ⟨rfl, rfl⟩ := Prod.mk.inj h
    · exact .moves (.tick hpc)
    · exact .moves (.noTick hpc)
  case h_7 hpc =>
    obtain ⟨rfl, rfl⟩ := Prod.mk.inj h
    exact .moves (.ticked hpc)
  case h_8 reloaded op rest hpc =>
    obtain ⟨rfl, rfl⟩ := Prod.mk.inj h
    exact .effect (hpc ▸ .ticking reloaded op rest) rfl
  case h_9 hpc =>
    split at h <;> obtain ⟨rfl, rfl⟩ := Prod.mk.inj h
    · exact .moves (.quiet hpc)
    · rename_i hpkt
      exact .packet hpc hpkt rfl
  case h_10 hpc =>
    obtain ⟨rfl, rfl⟩ := Prod.mk.inj h
    exact .moves (.learned hpc)
  case h_11 op rest hpc =>
    obtain ⟨rfl, rfl⟩ := Prod.mk.inj h
    exact .effect (hpc ▸ .learning op rest) rfl
  case h_12 hpc =>
    obtain ⟨rfl, rfl⟩ := Prod.mk.inj h
    exact .exits hpc
  case h_13 op rest hpc =>
    obtain ⟨rfl, rfl⟩ := Prod.mk.inj h
    exact .effect (hpc ▸ .stopping op rest) rfl

/-- While an effect is next, the main thread takes that effect. -/
theorem MainStep.effect_of_head {inp : Input} {os : Os} {d : Daemon} {w' : World} {o : List Output}
    {op : Op} (h : MainStep inp os d w' o) (hop : d.pc.ops.head? = some op) :
    ∃ rest extra next os' d', d.pc.Effect op rest next ∧ op.run inp os d = (os', d', extra) ∧
      w' = ⟨os', d'.map fun d => { d with pc := next (extra ++ rest) }⟩ := by
  cases h with
  | moves hm => simp [hm.ops.1] at hop
  | exits hpc | answer hpc | upcall hpc | packet hpc => simp [hpc, Pc.ops] at hop
  | @effect op' rest extra next os' d' hpc hrun =>
      rw [hpc.ops.1, List.head?_cons] at hop
      obtain rfl := Option.some.inj hop
      exact ⟨rest, extra, next, os', d', hpc, hrun, rfl⟩

/-- What is to come stays to come until it is taken. -/
theorem MainStep.pending {inp : Input} {os : Os} {d d' : Daemon} {w' : World} {o : List Output}
    {op : Op} (h : MainStep inp os d w' o) (hd' : w'.daemon = some d') (hop : op ∈ d.pc.ops) :
    d.pc.ops.head? = some op ∨ op ∈ d'.pc.ops := by
  cases hops : d.pc.ops with
  | nil => simp [hops] at hop
  | cons op' ops =>
      obtain ⟨rest, extra, next, os', d₁, heff, -, rfl⟩ := h.effect_of_head (by rw [hops]; rfl)
      obtain ⟨d₂, -, rfl⟩ := Option.map_eq_some_iff.mp hd'
      by_cases hne : op' = op
      · exact .inl (congrArg some hne)
      · exact .inr (heff.mem_next hne hop)

/-- The phase stays while channels are drained, or moves on, or a flow has been learned, or an
effect is taken. -/
theorem MainStep.next {inp : Input} {os : Os} {d d' : Daemon} {w' : World} {o : List Output}
    (h : MainStep inp os d w' o) (hd' : w'.daemon = some d') :
    (d'.pc = d.pc ∧ (d.pc = .answers ∨ d.pc = .upcalls)) ∨ (∃ lastCheck, Moves os d d'.pc lastCheck) ∨
      (d.pc = .recv ∧ d'.pc = .learning [.readMtime]) ∨
      ∃ op rest extra next d₁, d.pc.Effect op rest next ∧
        op.run inp os d = (w'.os, some d₁, extra) ∧ d' = { d₁ with pc := next (extra ++ rest) } := by
  cases h with
  | moves hm =>
      obtain rfl := Option.some.inj hd'
      exact .inr (.inl ⟨_, hm⟩)
  | exits => cases hd'
  | answer hpc hrx hdrain =>
      obtain rfl := Option.some.inj hd'
      obtain ⟨_, _, _, _, -, -, -, rfl⟩ := drainAnswer_cases hdrain
      exact .inl ⟨rfl, .inl hpc⟩
  | upcall hpc hurx hdrain =>
      obtain rfl := Option.some.inj hd'
      refine .inl ⟨?_, .inr hpc⟩
      cases drainUpcall_cases hdrain with
      | resolved => rfl
      | asked _ _ hraise =>
          obtain ⟨⟨_, _, rfl⟩, -⟩ := raise_cases hraise
          rfl
  | effect heff hrun =>
      obtain ⟨d₁, rfl, rfl⟩ := Option.map_eq_some_iff.mp hd'
      exact .inr (.inr (.inr ⟨_, _, _, _, d₁, heff, hrun, rfl⟩))
  | packet hpc hpkt hr =>
      obtain rfl := Option.some.inj hd'
      have hcase := hr ▸ handlePacket_cases inp os d _ _
      obtain hnext | hnext := hcase.next
      · rw [hnext]
        exact .inr (.inl ⟨_, .quiet hpc⟩)
      · exact .inr (.inr (.inl ⟨hpc, hnext⟩))

/-- The daemon exits at the end of its shutdown, or because it cannot bind. -/
theorem MainStep.survives {inp : Input} {os : Os} {d : Daemon} {w' : World} {o : List Output}
    (h : MainStep inp os d w' o) (hstop : d.pc ≠ .stopping [])
    (hbind : d.pc.ops.head? ≠ some .bind) : ∃ d', w'.daemon = some d' := by
  cases h with
  | exits hpc => exact absurd hpc hstop
  | @effect op rest extra next os' d₁ heff hrun =>
      rw [heff.ops.1, List.head?_cons] at hbind
      suffices h : ∃ d', d₁ = some d' by
        obtain ⟨d', rfl⟩ := h
        exact ⟨_, rfl⟩
      cases op with
      | bind => exact absurd rfl hbind
      | checkMtime | reconcile | openReader =>
          simp only [Op.run] at hrun
          repeat' split at hrun
          all_goals
            simp only [Prod.mk.injEq] at hrun
            exact ⟨_, hrun.2.1.symm⟩
      | _ =>
          simp only [Op.run, Prod.mk.injEq] at hrun
          exact ⟨_, hrun.2.1.symm⟩
  | moves | answer | upcall | packet => exact ⟨_, rfl⟩

/-- A tick that has reloaded the policy takes one effect after the other. -/
theorem MainStep.of_reloaded {inp : Input} {os : Os} {d d' : Daemon} {w' : World}
    {o : List Output} {ops : List Op} (h : MainStep inp os d w' o) (hd' : w'.daemon = some d')
    (hpc : d'.pc = .ticking true ops) :
    ∃ reloaded op rest extra d₁, d.pc = .ticking reloaded (op :: rest) ∧
      (reloaded = true ∨ op = .reload) ∧ op.run inp os d = (w'.os, some d₁, extra) ∧
      ops = extra ++ rest ∧ d' = { d₁ with pc := .ticking true ops } := by
  obtain ⟨hsame, hdrain⟩ | ⟨_, hm⟩ | ⟨-, hlearn⟩ | ⟨op, rest, extra, next, d₁, heff, hrun, rfl⟩ :=
    h.next hd'
  · simp [← hsame, hpc] at hdrain
  · rw [hpc] at hm
    cases hm
  · rw [hpc] at hlearn
    cases hlearn
  · generalize hpc₀ : d.pc = pc₀ at heff
    cases heff with
    | starting | learning | stopping => cases hpc
    | ticking reloaded =>
        obtain ⟨hreloaded, rfl⟩ := Pc.ticking.inj hpc
        exact ⟨reloaded, op, rest, extra, d₁, rfl, by simpa using hreloaded, hrun, rfl, by
          rw [hreloaded]⟩

/-- A step of the system is one of the main thread, or around it. -/
theorem step_cases {w w' : World} {ev : Event} {o : List Output} (h : w.step ev = some (w', o)) :
    (∃ inp d, ev = .daemon inp ∧ w.daemon = some d ∧ MainStep inp w.os d w' o) ∨
      Outside w ev w' o := by
  by_cases hev : ∃ inp, ev = .daemon inp
  · obtain ⟨inp, rfl⟩ := hev
    obtain ⟨d, hd, h⟩ := Option.map_eq_some_iff.mp h
    exact .inl ⟨inp, d, rfl, hd, mainStep_of_step h⟩
  · exact .inr (outside_of_step h fun inp heq => hev ⟨inp, heq⟩)

/-! ## what an effect leaves alone -/

section Effects

variable {op : Op} {inp : Input} {os os' : Os} {d d' : Daemon} {extra : List Op}

omit [Casing] in
theorem kernBackend_frame (inp : Input) (os : Os) (d : Daemon) :
    os.SameRest (kernBackend inp os d).1 ∧ ∃ kern, (kernBackend inp os d).2.1 = { d with kern } := by
  refine ⟨?_, _, rfl⟩
  simp only [kernBackend]
  cases d.kern with
  | none => exact .refl os
  | some h => exact Os.sameRest_closed _ _

omit [Casing] in
theorem reopenBackend_frame (inp : Input) (os : Os) (d : Daemon) :
    os.SameRest (reopenBackend inp os d).1 ∧
      ∃ kern, (reopenBackend inp os d).2.1 = { d with kern } := by
  unfold reopenBackend
  split
  · split
    · split
      · rename_i h hk _
        simp only [closeKern, hk]
        exact ⟨Os.sameRest_closed _ _, _, rfl⟩
      · exact ⟨.refl os, _, rfl⟩
    · split
      · exact ⟨.refl os, _, rfl⟩
      · exact ⟨.refl os, _, rfl⟩
  · exact ⟨.refl os, _, rfl⟩

/-- An effect changes the module and the divert rule at most. -/
theorem Op.run_os (h : op.run inp os d = (os', some d', extra)) :
    ∃ kmod udpdivert, os' = { os with kmod, udpdivert } := by
  have same : ∀ {os'}, os.SameRest os' → ∃ kmod udpdivert, os' = { os with kmod, udpdivert } := by
    rintro _ ⟨kmod, rfl⟩
    exact ⟨kmod, _, rfl⟩
  have fst : (op.run inp os d).1 = os' := by rw [h]
  subst fst
  cases op with
  | openBackend => exact same (kernBackend_frame inp os d).1
  | reopen => exact same (reopenBackend_frame inp os d).1
  | flushVerdicts | setUpcall on => exact same (Os.sameRest_kernIoctl _ _ _ _)
  | setUdpDivert divert =>
      simp only [Op.run]
      split
      · exact ⟨_, _, rfl⟩
      · exact same (.refl os)
  | bind =>
      simp only [Op.run] at h ⊢
      split at h <;> simp only [Prod.mk.injEq, reduceCtorEq, false_and, and_false] at h
      rename_i hbind
      rw [if_pos hbind]
      exact same (.refl os)
  | checkMtime | reconcile | openReader =>
      simp only [Op.run]
      repeat' split
      all_goals exact same (.refl os)
  | loadPolicy | readMtime | reload | clearDecided | spawnReader | markOn | markOff =>
      exact same (.refl os)

/-- What an effect leaves alone in the daemon. -/
structure Op.Keeps (op : Op) (d d' : Daemon) : Prop where
  pol : op ≠ .loadPolicy → op ≠ .reload → d'.pol = d.pol ∧ d'.mode = d.mode
  kern : op ≠ .openBackend → op ≠ .reopen → op ≠ .flushVerdicts → (∀ on, op ≠ .setUpcall on) →
    d'.kern = d.kern
  decided : op ≠ .clearDecided → d'.decided = d.decided
  upcallOn : op ≠ .markOn → op ≠ .markOff → d'.upcallOn = d.upcallOn
  pendingUpcalls : op ≠ .markOff → d'.pendingUpcalls = d.pendingUpcalls
  readers : op ≠ .openReader → op ≠ .spawnReader → d'.readers = d.readers
  names : d'.names = d.names
  urx : d'.urx = d.urx
  rx : d'.rx = d.rx

/-- What an effect changes in the daemon, once for all effects: what `Op.Keeps` does not list,
and the watermark, which only its own effects move. -/
theorem Op.run_frame (h : op.run inp os d = (os', some d', extra)) :
    op.Keeps d d' ∧ (d'.asking = d.asking ∧ d'.prompts = d.prompts) ∧
      d'.fallback = d.fallback ∧
      (op ≠ .readMtime → op ≠ .checkMtime → d'.polMtime = d.polMtime) := by
  cases op with
  | openBackend =>
      obtain ⟨-, kern, hk⟩ := kernBackend_frame inp os d
      simp only [Op.run, Prod.mk.injEq, Option.some.injEq, hk] at h
      obtain ⟨-, rfl, -⟩ := h
      exact ⟨by constructor <;> simp, ⟨rfl, rfl⟩, rfl, fun _ _ => rfl⟩
  | reopen =>
      obtain ⟨-, kern, hk⟩ := reopenBackend_frame inp os d
      simp only [Op.run, Prod.mk.injEq, Option.some.injEq, hk] at h
      obtain ⟨-, rfl, -⟩ := h
      exact ⟨by constructor <;> simp, ⟨rfl, rfl⟩, rfl, fun _ _ => rfl⟩
  | bind | checkMtime | reconcile | openReader =>
      simp only [Op.run] at h
      repeat' split at h
      all_goals
        simp only [Prod.mk.injEq, Option.some.injEq, reduceCtorEq, false_and, and_false] at h
        try obtain ⟨-, rfl, -⟩ := h
        try exact ⟨by constructor <;> simp, ⟨rfl, rfl⟩, rfl, by simp⟩
  | loadPolicy | flushVerdicts | readMtime | reload | clearDecided | setUpcall | spawnReader |
    markOn | markOff | setUdpDivert =>
      simp only [Op.run, reloadPolicy, Daemon.loadFrom, Prod.mk.injEq, Option.some.injEq] at h
      obtain ⟨-, rfl, -⟩ := h
      exact ⟨by constructor <;> simp, ⟨rfl, rfl⟩, rfl, by simp⟩

theorem Op.run_keeps (h : op.run inp os d = (os', some d', extra)) : op.Keeps d d' :=
  (Op.run_frame h).1

/-- Effects raise no prompt and end none. -/
theorem Op.run_questions (h : op.run inp os d = (os', some d', extra)) :
    d'.asking = d.asking ∧ d'.prompts = d.prompts := (Op.run_frame h).2.1

/-- Only the watermark's own effects move it. -/
theorem Op.run_polMtime (h : op.run inp os d = (os', some d', extra)) :
    d'.fallback = d.fallback ∧
      (op ≠ .readMtime → op ≠ .checkMtime → d'.polMtime = d.polMtime) := (Op.run_frame h).2.2

/-- An effect keeps the readers' events. -/
theorem Op.run_holding (h : op.run inp os d = (os', some d', extra)) (ev : KernEvent) :
    (∃ r ∈ d'.readers, r.holding = some ev) ↔ ∃ r ∈ d.readers, r.holding = some ev := by
  by_cases hop : op = .openReader ∨ op = .spawnReader
  · obtain rfl | rfl := hop
    · simp only [Op.run] at h
      split at h <;> simp only [Prod.mk.injEq, Option.some.injEq] at h <;> obtain ⟨-, rfl, -⟩ := h
      · constructor
        · rintro ⟨r, hr, hev⟩
          obtain hr | hr := List.mem_append.mp hr
          · exact ⟨r, hr, hev⟩
          · rw [List.mem_singleton.mp hr] at hev
            cases hev
        · rintro ⟨r, hr, hev⟩
          exact ⟨r, List.mem_append_left _ hr, hev⟩
      · exact Iff.rfl
    · simp only [Op.run, Prod.mk.injEq, Option.some.injEq] at h
      obtain ⟨-, rfl, -⟩ := h
      constructor
      · rintro ⟨r, hr, hev⟩
        obtain ⟨r', hr', rfl⟩ := List.mem_map.mp hr
        exact ⟨r', hr', hev⟩
      · rintro ⟨r, hr, hev⟩
        exact ⟨_, List.mem_map_of_mem hr, hev⟩
  · rw [(Op.run_keeps h).readers (not_or.mp hop).1 (not_or.mp hop).2]

omit [Casing] in
/-- The effects an effect may ask for. -/
def Op.extras : Op → List (List Op)
  | .openBackend | .reopen => [[], [.flushVerdicts]]
  | .checkMtime => [[], [.reload]]
  | .reload => [[.clearDecided, .flushVerdicts], [.openBackend, .clearDecided, .flushVerdicts],
      teardown ++ [.openBackend, .clearDecided, .flushVerdicts]]
  | .reconcile => [[], [.openReader], teardown]
  | .openReader => [[], enable]
  | _ => [[]]

theorem Op.extra_mem_extras {od : Option Daemon} (h : op.run inp os d = (os', od, extra)) :
    extra ∈ op.extras := by
  have hextra : (op.run inp os d).2.2 = extra := by rw [h]
  subst hextra
  cases op with
  | reopen =>
      simp only [Op.run, reopenBackend]
      repeat' split
      all_goals simp [Op.extras]
  | openBackend | bind | checkMtime | reconcile | openReader =>
      simp only [Op.run, kernBackend]
      repeat' split
      all_goals simp [Op.extras]
  | reload =>
      simp only [Op.run, reloadPolicy]
      repeat' split
      all_goals simp [Op.extras]
  | loadPolicy | flushVerdicts | readMtime | clearDecided | setUpcall | spawnReader |
    markOn | markOff | setUdpDivert => simp [Op.run, Op.extras]

omit [Casing] in
/-- Loading the policy is asked for at start-up only. -/
theorem Op.loadPolicy_not_mem_extra {extra : List Op} (h : extra ∈ op.extras) : .loadPolicy ∉ extra := by
  revert extra
  cases op <;> decide +revert

end Effects

end Pfsnitch
