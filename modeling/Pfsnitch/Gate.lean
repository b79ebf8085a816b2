import Pfsnitch.Held
import Pfsnitch.Pf

/-!
# Pfsnitch.Gate

pf at work on a machine whose service comes and goes: which connections leave without the
daemon.
-/

namespace Pfsnitch.Pf

open Lib Service

/-! ## the machine with its packets -/

/-- The processes and the scripts with the anchors they load, and the states of pf. -/
structure Host where
  machine : Service.Machine
  states : States

/-- What can happen: something about the service, a packet comes to pf, or a state is given
up. -/
inductive HostEvent where
  | service (e : Service.Event)
  | packet (p : Packet) (fits : Bool)
  | expire (k : Connection)

namespace Host

/-- pf sees a packet. -/
def test (h : Host) (p : Packet) (fits : Bool) : Fate × States :=
  Pf.test h.machine.rules h.machine.udp h.states p fits

def step (cfg : Config) (h : Host) : HostEvent → Option (Host × List Fate)
  | .service e => (Service.step cfg h.machine e).map fun (m, _) => ({ h with machine := m }, [])
  | .packet p fits =>
    let (fate, states) := h.test p fits
    some ({ h with states }, [fate])
  | .expire k => some ({ h with states := h.states.filter fun s => s.1 ≠ k }, [])

end Host

/-! ## what leaves unseen -/

/-- Connections that no ruleset shows to the daemon: those that came in for ssh, leases, and
what is neither TCP nor UDP. -/
def Connection.exempt (k : Connection) : Prop :=
  (k.proto = IPPROTO_TCP ∧ k.lport = 22) ∨ (k.proto = IPPROTO_UDP ∧ k.lport = 68 ∧ k.fport = 67) ∨
    (k.proto ≠ IPPROTO_TCP ∧ k.proto ≠ IPPROTO_UDP)

/-- The anchor lets a protocol pass without the daemon: it has failed open, or for UDP the
sub-anchor is empty. -/
def Exposed (m : Service.Machine) (proto : UInt8) : Prop :=
  m.rules = .failopen ∨ (m.rules = .divert ∧ m.udp = false ∧ proto = IPPROTO_UDP)

/-- What the daemon does not get to see. -/
def Action.unseen (a : Action) : Prop := a.pass = true ∧ a.divert = none

theorem Action.unseen_of_fate {a : Action} (h : a.fate = .passed) : a.unseen := by
  unfold fate at h
  split at h
  · cases h
  · rename_i hpass
    refine ⟨by simpa using hpass, ?_⟩
    split at h
    · cases h
    · assumption

theorem unseen_leaving {m : Service.Machine} {p : Packet} (hclosed : ¬Exposed m p.proto)
    (h : (leaving m.rules m.udp p).unseen) : p.proto ≠ IPPROTO_TCP ∧ p.proto ≠ IPPROTO_UDP := by
  obtain ⟨hpass, hdivert⟩ := h
  cases hrules : m.rules with
  | empty =>
      rw [hrules] at hpass
      cases hpass
  | failopen => exact absurd (.inl hrules) hclosed
  | divert =>
      rw [hrules] at hpass hdivert
      simp only [leaving] at hpass hdivert
      split_ifs at hpass hdivert with hudp hdns hsub htcp hstarts
      · cases hdivert
      · cases hdivert
      · exact absurd (.inr ⟨hrules, by simpa using hsub, hudp⟩) hclosed
      · cases hdivert
      · cases hpass
      · exact ⟨htcp, hudp⟩

/-- What the rules let pass unseen. -/
theorem exempt_of_unseen {m : Service.Machine} {p : Packet} (hlo : ¬p.skipped = true)
    (hclosed : ¬Exposed m p.proto) (h : (meaning m.rules m.udp p).unseen) :
    p.connection.exempt := by
  obtain ⟨hpass, hdivert⟩ := h
  rw [meaning, if_neg hlo] at hpass hdivert
  split_ifs at hpass hdivert with hout hrenews
  · obtain ⟨-, hudp, hsport, hdport⟩ := hrenews
    rw [Packet.connection, if_pos hout]
    exact .inr (.inl ⟨hudp, hsport, hdport⟩)
  · rw [Packet.connection, if_pos hout]
    exact .inr (.inr (unseen_leaving hclosed ⟨hpass, hdivert⟩))
  · rw [Packet.connection, if_neg hout]
    unfold arriving at hpass hdivert
    split_ifs at hpass hdivert with hdns hinvited
    · cases hdivert
    · obtain ⟨-, htcp, hdport, -⟩ | ⟨-, hudp, hsport, hdport⟩ | ⟨-, hicmp, -⟩ := hinvited
      · exact .inl ⟨htcp, hdport⟩
      · exact .inr (.inl ⟨hudp, hdport, hsport⟩)
      · exact .inr (.inr ⟨fun h => absurd (hicmp.symm.trans h) (by decide),
          fun h => absurd (hicmp.symm.trans h) (by decide)⟩)
    · cases hpass

/-! ## runs -/

/-- A packet of the connection comes when the anchor is not exposed. -/
def Guarded (k : Connection) (h : Host) (e : HostEvent) : Prop :=
  ∀ p fits, e = .packet p fits → p.connection = k → ¬Exposed h.machine k.proto

/-- The states of a connection do not let it pass unseen. -/
def Host.Shown (h : Host) (k : Connection) : Prop :=
  ∀ a, (k, a) ∈ h.states → a.unseen → k.exempt

/-- What pf does with a packet, and keeps of it. -/
theorem Host.test_cases (h : Host) (p : Packet) (fits : Bool) :
    h.test p fits = (.passed, h.states) ∧ p.iface = .lo0 ∨ h.test p fits = (.dropped, h.states) ∨
      ¬p.skipped = true ∧ ∃ a t, h.states.step Packet.connection Action.keep
        (meaning h.machine.rules h.machine.udp) p = (a, t) ∧ h.test p fits = (a.fate, t) := by
  have hmeaning : evaluate h.machine.rules h.machine.udp = meaning h.machine.rules h.machine.udp :=
    funext (evaluate_eq _ _)
  unfold Host.test Pf.test
  rw [hmeaning]
  split_ifs with hlo hfits
  · exact .inl ⟨rfl, Packet.skipped_iff.mp hlo⟩
  · exact .inr (.inl rfl)
  · exact .inr (.inr ⟨hlo, _, _, rfl, rfl⟩)

/-- A packet leaves the states shown, and what passes is exempt. -/
theorem Host.Shown.test {h : Host} {k : Connection} (hs : h.Shown k) (p : Packet) (fits : Bool)
    (hg : p.connection = k → ¬Exposed h.machine k.proto) :
    (p.iface ≠ .lo0 → p.connection = k → (h.test p fits).1 = .passed → k.exempt) ∧
      Host.Shown { h with states := (h.test p fits).2 } k := by
  obtain ⟨heq, hlo⟩ | heq | ⟨hlo, a, t, hstep, heq⟩ := h.test_cases p fits
  · rw [heq]
    exact ⟨fun hne => absurd hlo hne, hs⟩
  · rw [heq]
    exact ⟨fun _ _ hpass => (nomatch hpass), hs⟩
  · have hproto : p.connection = k → p.proto = k.proto := by
      rintro rfl
      unfold Packet.connection
      split <;> rfl
    have hrules : p.connection = k → (meaning h.machine.rules h.machine.udp p).unseen → k.exempt := by
      intro hk hunseen
      have hclosed := hg hk
      rw [← hproto hk] at hclosed
      exact hk ▸ exempt_of_unseen hlo hclosed hunseen
    let P : Connection → Action → Prop := fun k' a => k' = k → a.unseen → k.exempt
    have hforall : P _ (h.states.step Packet.connection Action.keep _ p).1 ∧
        ∀ k a, (k, a) ∈ (h.states.step Packet.connection Action.keep _ p).2 → P k a :=
      Filter.States.step_forall (fun k' a hmem hk => hs a (hk ▸ hmem)) hrules
    rw [hstep] at hforall
    rw [heq]
    exact ⟨fun _ hk hpass => hforall.1 hk (Action.unseen_of_fate hpass),
      fun a hmem => hforall.2 k a hmem rfl⟩

/-- Events one after the other. -/
theorem Host.Shown.run {cfg : Config} {k : Connection} {h₀ h : Host} (hs : h₀.Shown k)
    (hrun : Run (Host.step cfg) (Guarded k) h₀ h) : h.Shown k := by
  refine hrun.invariant (P := fun h => h.Shown k) hs fun h e h' o hs hok hstep => ?_
  cases e with
  | service e =>
      obtain ⟨m, -, hm⟩ := Option.map_eq_some_iff.mp hstep
      obtain ⟨rfl, -⟩ := Prod.mk.inj hm
      exact hs
  | packet p fits =>
      obtain ⟨rfl, -⟩ := Prod.mk.inj (Option.some.inj hstep)
      exact (hs.test p fits (hok p fits rfl)).2
  | expire k' =>
      obtain ⟨rfl, -⟩ := Prod.mk.inj (Option.some.inj hstep)
      exact fun a hmem => hs a (List.mem_of_mem_filter hmem)

theorem Host.shown_nil {h : Host} (hnew : h.states = []) (k : Connection) : h.Shown k := by
  intro a hmem
  rw [hnew] at hmem
  cases hmem

/-- **A connection that passes unseen began when the anchor was exposed.**  In every run, with
any events of the service and packets and states that are given up in any order: a
connection whose packets all came when the anchor was not exposed does not pass unseen,
unless it is ssh that came in, a lease, or neither TCP nor UDP. -/
theorem unseen_origin (cfg : Config) (k : Connection) {h₀ h : Host} (hnew : h₀.states = [])
    (hrun : Run (Host.step cfg) (Guarded k) h₀ h) (p : Packet) (fits : Bool) (hk : p.connection = k)
    (hlo : p.iface ≠ .lo0) (hguard : ¬Exposed h.machine k.proto)
    (hpass : (h.test p fits).1 = .passed) : k.exempt :=
  (((Host.shown_nil hnew k).run hrun).test p fits fun _ => hguard).1 hlo hk hpass

/-- A run of the service is one of the machine, as long as no packet comes. -/
theorem run_service {cfg : Config} {ok : Service.Machine → Service.Event → Prop}
    {m m' : Service.Machine} (hrun : Run (Service.step cfg) ok m m') (k : Connection) (t : States) :
    Run (Host.step cfg) (Guarded k) ⟨m, t⟩ ⟨m', t⟩ := by
  induction hrun with
  | refl => exact .refl
  | tail _ _ hstep ih =>
      exact .tail ih (i := .service _) (fun _ _ h => nomatch h) (by rw [Host.step, hstep]; rfl)

/-- The service is started and `anchor.conf` is loaded behind the daemon; a datagram goes to the
daemon, a lease is renewed, and it is renewed again while the service is being stopped. -/
theorem unseen_origin_lease :
    let datagram : Packet :=
      ⟨true, .ext, IPPROTO_UDP, .v4 ⟨10, 0, 0, 2⟩, .v4 ⟨8, 8, 4, 4⟩, 5000, 443, false, false, 0⟩
    let lease : Packet :=
      ⟨true, .ext, IPPROTO_UDP, .v4 ⟨10, 0, 0, 2⟩, .v4 ⟨10, 0, 0, 1⟩, 68, 67, false, false, 0⟩
    ∃ h : Host, Run (Host.step ⟨false, true⟩) (Guarded lease.connection) ⟨.boot, []⟩ h ∧
      h.machine.rules = .empty ∧ h.states.length = 2 ∧
      (h.test datagram true).1 = .diverted 8668 ∧ (h.test lease true).1 = .passed ∧
      lease.connection.exempt := by
  intro datagram lease
  let open₁ : Service.Machine :=
    { starting true with rules := .divert, udp := true, scripts := [.watchdog] }
  let closed : Service.Machine :=
    { open₁ with rules := .empty, scripts := [.watchdog, .stopWatchdog] }
  have hstart : exec (Service.step ⟨false, true⟩) (fun _ _ => True) .boot
      (started ++ [.bind 0, .script 0 true, .script 0 true, .script 0 true]) = some open₁ := by decide
  have hstop : exec (Service.step ⟨false, true⟩) (fun _ _ => True) open₁
      [.call .stop, .script 1 true] = some closed := by decide
  have hguard : ¬Exposed open₁ IPPROTO_UDP := by
    rintro (h | ⟨-, h, -⟩) <;> cases h
  let t : States := (Host.test ⟨open₁, []⟩ datagram true).2
  have hrun : Run (Host.step ⟨false, true⟩) (Guarded lease.connection) ⟨.boot, []⟩
      ⟨closed, (Host.test ⟨open₁, t⟩ lease true).2⟩ :=
    ((run_service (run_of_exec hstart) _ []).tail (i := .packet datagram true)
      (fun p _ _ _ => hguard) rfl |>.tail (i := .packet lease true) (fun p _ _ _ => hguard) rfl).trans
      (run_service (run_of_exec hstop) _ _)
  have hclosed : ¬Exposed closed IPPROTO_UDP := by
    rintro (h | ⟨h, -⟩) <;> cases h
  have hpass : (Host.test ⟨closed, (Host.test ⟨open₁, t⟩ lease true).2⟩ lease true).1 = .passed := by
    decide
  exact ⟨_, hrun, rfl, by decide, by decide, hpass,
    unseen_origin ⟨false, true⟩ _ rfl hrun lease true rfl (by decide) hclosed hpass⟩

/-! ## failing closed -/

/-- The anchor has not failed open, and no script is about to load `failopen.conf`. -/
structure Shut (m : Service.Machine) : Prop where
  rules : m.rules ≠ .failopen
  scripts : ∀ w, Service.Pc.watchFailopen w ∉ m.scripts

variable {cfg : Config} {m m' : Service.Machine} {ok : Bool} {pc pc' : Service.Pc} {loads : List Load}

/-- With `pfsnitch_failmode="closed"` no script comes to load `failopen.conf`, nor does so. -/
theorem shut_script (hcfg : cfg.failClosed = true) (hpc : ∀ w, pc ≠ .watchFailopen w)
    (h : pc.step cfg m ok = some (m', pc', loads)) :
    (∀ w, pc' ≠ .watchFailopen w) ∧ (m.rules ≠ .failopen → m'.rules ≠ .failopen) := by
  cases pc <;> simp only [Service.Pc.step] at h <;> grind [Service.Machine.flush, Service.Machine.launch]

/-- One event of the service. -/
theorem shut_step (hcfg : cfg.failClosed = true) (hm : Shut m) {e : Service.Event}
    (h : Service.step cfg m e = some (m', loads)) : Shut m' := by
  have hscripts : ∀ w, Service.Pc.watchFailopen w ∉ m.scripts.map Service.Pc.killWatch := by
    intro w hmem
    obtain ⟨pc, -, hpc⟩ := List.mem_map.mp hmem
    cases pc <;> cases hpc
  cases e with
  | script i ok =>
      obtain ⟨pc, m₁, pc', hi, hstep, rfl⟩ := step_script h
      have hpc : ∀ w, pc ≠ .watchFailopen w := fun w heq =>
        hm.scripts w (heq ▸ List.mem_of_getElem? hi)
      obtain ⟨hpc', hrules⟩ := shut_script hcfg hpc hstep
      refine ⟨hrules hm.rules, fun w hmem => ?_⟩
      obtain hmem | heq := List.mem_or_eq_of_mem_set hmem
      · obtain hs | hs | hs := Service.Pc.step_scripts hstep
        · exact hm.scripts w (hs ▸ hmem)
        · rw [hs, List.mem_append, List.mem_singleton] at hmem
          exact hmem.elim (hm.scripts w) fun heq => nomatch heq
        · exact hscripts w (hs ▸ hmem)
      · exact hpc' w heq.symm
  | call c =>
      obtain ⟨rfl, -⟩ := Prod.mk.inj (Option.some.inj h)
      refine ⟨hm.rules, fun w hmem => ?_⟩
      obtain hmem | hmem := List.mem_append.mp hmem
      · exact hm.scripts w hmem
      · have heq := List.mem_singleton.mp hmem
        cases c <;> cases heq
  | spawn =>
      simp only [Service.step] at h
      split at h
      · split_ifs at h
        obtain ⟨rfl, -⟩ := Prod.mk.inj (Option.some.inj h)
        exact ⟨hm.rules, hm.scripts⟩
      · cases h
  | command | byHand | supervisorExit =>
      obtain ⟨rfl, -⟩ := Prod.mk.inj (Option.some.inj h)
      exact ⟨hm.rules, hm.scripts⟩
  | bind | exit | squat | setUdpDivert =>
      simp only [Service.step] at h
      split_ifs at h
      all_goals
        obtain ⟨rfl, -⟩ := Prod.mk.inj (Option.some.inj h)
        exact ⟨hm.rules, hm.scripts⟩

/-- Events one after the other. -/
theorem shut_run (hcfg : cfg.failClosed = true) {h₀ h : Host} (hshut : Shut h₀.machine)
    (hrun : Run (Host.step cfg) (fun _ _ => True) h₀ h) :
    Shut h.machine ∧ Run (Host.step cfg) (fun h _ => Shut h.machine) h₀ h := by
  obtain ⟨hend, hrun⟩ := hrun.guarded (P := fun h => Shut h.machine) hshut
    fun h e h' o hs _ hstep => by
      cases e with
      | service e =>
          obtain ⟨⟨m, loads⟩, hserv, hm⟩ := Option.map_eq_some_iff.mp hstep
          obtain ⟨rfl, -⟩ := Prod.mk.inj hm
          exact shut_step hcfg hs hserv
      | packet p fits =>
          obtain ⟨rfl, -⟩ := Prod.mk.inj (Option.some.inj hstep)
          exact hs
      | expire k =>
          obtain ⟨rfl, -⟩ := Prod.mk.inj (Option.some.inj hstep)
          exact hs
  exact ⟨hend, hrun.mono fun _ _ hok => hok.2⟩

theorem Shut.not_exposed (hm : Shut m) {proto : UInt8} (hproto : proto = IPPROTO_TCP) :
    ¬Exposed m proto := by
  rintro (hopen | ⟨-, -, hudp⟩)
  · exact hm.rules hopen
  · rw [hproto] at hudp
    cases hudp

/-- **Failing closed, no TCP connection leaves unseen.**  With `pfsnitch_failmode="closed"`,
whatever becomes of the service (it is started, stopped, reloaded, crashes, does not come up,
is repaired by the watchdog, and whatever `pfctl` fails), and in any order of packets: a TCP
packet that passes pf without the daemon belongs to a connection to port 22 of this machine. -/
theorem closed_sees_tcp (cfg : Config) (hcfg : cfg.failClosed = true) {h₀ h : Host}
    (hshut : Shut h₀.machine) (hnew : h₀.states = [])
    (hrun : Run (Host.step cfg) (fun _ _ => True) h₀ h) (p : Packet) (fits : Bool)
    (htcp : p.proto = IPPROTO_TCP) (hlo : p.iface ≠ .lo0) (hpass : (h.test p fits).1 = .passed) :
    p.connection.lport = 22 := by
  have hproto : p.connection.proto = IPPROTO_TCP := by
    unfold Packet.connection
    split <;> exact htcp
  obtain ⟨hend, hrun⟩ := shut_run hcfg hshut hrun
  have hshown : h.Shown p.connection := (Host.shown_nil hnew _).run
    (hrun.mono fun _ _ hs _ _ _ _ => hs.not_exposed hproto)
  obtain ⟨-, hlport⟩ | ⟨hudp, -⟩ | ⟨hno, -⟩ :=
    (hshown.test p fits fun _ => hend.not_exposed hproto).1 hlo rfl hpass
  · exact hlport
  · rw [hproto] at hudp
    cases hudp
  · exact absurd hproto hno

/-- A reply to ssh, as the machine comes up. -/
theorem closed_sees_tcp_ssh :
    let reply : Packet := ⟨true, .ext, IPPROTO_TCP, .v4 ⟨10, 0, 0, 2⟩, .v4 ⟨10, 0, 0, 9⟩, 22, 40000, true,
      true, 0⟩
    let request : Packet := ⟨false, .ext, IPPROTO_TCP, .v4 ⟨10, 0, 0, 9⟩, .v4 ⟨10, 0, 0, 2⟩, 40000, 22,
      true, false, 0⟩
    let h₀ : Host := ⟨⟨[], 0, none, false, .empty, false, []⟩, []⟩
    let h : Host := { h₀ with states := (h₀.test request true).2 }
    (Shut h₀.machine ∧ h₀.states = [] ∧ Run (Host.step ⟨true, true⟩) (fun _ _ => True) h₀ h ∧
      reply.proto = IPPROTO_TCP ∧ reply.iface ≠ .lo0 ∧ (h.test reply true).1 = .passed) ∧
      reply.connection.lport = 22 := by
  intro reply request h₀ h
  have hshut : Shut h₀.machine := ⟨by decide, fun w hmem => nomatch hmem⟩
  have hrun : Run (Host.step ⟨true, true⟩) (fun _ _ => True) h₀ h :=
    .single (i := .packet request true) trivial rfl
  have hpass : (h.test reply true).1 = .passed := by decide
  exact ⟨⟨hshut, rfl, hrun, rfl, by decide, hpass⟩,
    closed_sees_tcp ⟨true, true⟩ rfl hshut rfl hrun reply true rfl (by decide) hpass⟩

end Pfsnitch.Pf
