import Pfsnitch.Daemon.Device

/-!
# Pfsnitch.Daemon.Cases

What one answer, one kernel event and one packet can do, case by case.  The
invariants are proved from these tables, not from the definitions.
-/

namespace Pfsnitch

open Lib

/-- The verdict a kernel verdict stands for. -/
def KVerdict.verdict : KVerdict → Verdict
  | .allow => .allow
  | .deny => .deny

variable [Casing] {inp : Input} {os os' : Os} {d d' : Daemon}

omit [Casing] in
theorem Mode.enforcing_iff {m : Mode} : m.enforcing = true ↔ m = .enforcement := by
  cases m <;> decide

omit [Casing] in
theorem Mode.not_enforcing_iff {m : Mode} : ¬ m.enforcing = true ↔ m = .visibility := by
  cases m <;> decide

/-! ## answers -/

/-- One answer: the waiters are resolved, then the policy and the file change. -/
theorem drainAnswer_cases {ans : Answer} {p : Pending}
    (h : drainAnswer inp os d ans p = (os', d')) :
    ∃ os₁ kern pol ls,
      resolveAll inp (toKVerdict ans.approves) 0 ((d.waiters p.key).map (·.ev.id)) os d.kern =
        (os₁, kern) ∧
      d.pol.answered ans p.exe p.dst p.host p.dport (p.exe.bind os.env.hash) = (pol, ls) ∧
      os' = os₁.appendPolicy inp ls ∧
      d' = { d with
        kern, pol
        asking := d.asking.erase p.key
        pendingUpcalls := d.pendingUpcalls.erase p.key } := by
  rcases hr : resolveAll inp (toKVerdict ans.approves) 0 ((d.waiters p.key).map (·.ev.id)) os d.kern
    with ⟨os₁, kern⟩
  simp only [drainAnswer, hr, (Os.sameRest_of_resolveAll hr).env] at h
  obtain ⟨rfl, rfl⟩ := Prod.mk.inj h
  exact ⟨os₁, kern, _, _, hr, rfl, rfl, rfl⟩

/-! ## prompts -/

omit [Casing] in
/-- Raising a prompt changes what is being asked, and starts at most that prompt. -/
theorem raise_cases {key : AskKey} {p : Prompt} {o : List Output} (h : raise d key p = (d', o)) :
    (∃ asking prompts, d' = { d with asking, prompts }) ∧ (o = [] ∨ o = [.prompt p]) := by
  simp only [raise] at h
  split at h <;> obtain ⟨rfl, rfl⟩ := Prod.mk.inj h
  · exact ⟨⟨_, _, rfl⟩, .inl rfl⟩
  · exact ⟨⟨_, _, rfl⟩, .inr rfl⟩

/-! ## kernel events -/

/-- The verdict on a kernel event. -/
def eventVerdict (os : Os) (d : Daemon) (ev : KernEvent) : Verdict :=
  judge d.pol os.env (some ev.path) ev.dst (d.names.nameFor ev.dst) ev.dport

/-- The question a kernel event raises. -/
def eventKey (d : Daemon) (ev : KernEvent) : AskKey :=
  (ev.path, askKey (nonEmpty ((d.names.nameFor ev.dst).getD [])) ev.dst)

/-- What draining one kernel event can do. -/
inductive UpcallCase (inp : Input) (os : Os) (d : Daemon) (ev : KernEvent) :
    Os → Daemon → List Output → Prop
  | resolved {v : KVerdict} {os' : Os} {kern : Option Handle}
      (hv : ev.path = [] ∧ v = .allow ∨ ev.path ≠ [] ∧ eventVerdict os d ev = v.verdict)
      (h : resolveAll inp v 0 [ev.id] os d.kern = (os', kern)) :
      UpcallCase inp os d ev os' { d with kern } []
  | asked {p : Prompt} {d' : Daemon} {o : List Output} (hpath : ev.path ≠ [])
      (hv : eventVerdict os d ev = .ask) (h : raise d (eventKey d ev) p = (d', o)) :
      UpcallCase inp os d ev os (addWaiter d' (eventKey d ev) ⟨ev, d.names.nameFor ev.dst⟩) o

theorem drainUpcall_cases {ev : KernEvent} {o : List Output}
    (h : drainUpcall inp os d ev = (os', d', o)) : UpcallCase inp os d ev os' d' o := by
  have answered : ∀ {v}, (ev.path = [] ∧ v = .allow ∨
      ev.path ≠ [] ∧ eventVerdict os d ev = v.verdict) →
      ((resolveAll inp v 0 [ev.id] os d.kern).1,
        { d with kern := (resolveAll inp v 0 [ev.id] os d.kern).2 }, []) = (os', d', o) →
      UpcallCase inp os d ev os' d' o := by
    intro v hv h
    simp only [Prod.mk.injEq] at h
    obtain ⟨rfl, rfl, rfl⟩ := h
    exact .resolved hv rfl
  simp only [drainUpcall] at h
  split at h
  · rename_i hpath
    exact answered (.inl ⟨hpath, rfl⟩) h
  · rename_i hpath
    split at h
    · rename_i hv
      exact answered (v := .allow) (.inr ⟨hpath, hv⟩) h
    · rename_i hv
      exact answered (v := .deny) (.inr ⟨hpath, hv⟩) h
    · rename_i hv
      rcases hr : raise d (eventKey d ev) (upcallPrompt ev (idChanged d.pol os.env ev.path)
        ((d.names.nameFor ev.dst).getD [])) with ⟨d₁, o₁⟩
      have heq := hr
      simp only [eventKey] at heq
      simp only [heq, Prod.mk.injEq] at h
      obtain ⟨rfl, rfl, rfl⟩ := h
      exact .asked hpath hv hr

/-! ## packets -/

/-- The slow path judges the flow by its key. -/
theorem slowVerdict_key (pol : Policy) (env : Env) (names : DnsCache) (f : Flow) :
    slowVerdict pol env names f.key =
      judge pol env ((env.owner f.key).map (·.path)) f.dst (names.nameFor f.dst) f.dport := rfl

omit [Casing] in
/-- Pushing a verdict touches the module and the handle only. -/
theorem pushSettled_cases {f : Flow} {exe : Option Str} {v : KVerdict}
    (h : pushSettled inp os d f exe v = (os', d')) :
    (os' = os ∧ d' = d) ∨
      ∃ path, exe = some path ∧ d.mode = .enforcement ∧
        os' = (kernIoctl os d.kern (inp.ioctl 1) fun k =>
          pushVerdict k f.proto f.dst f.dport path v (inp.memory 0)).1 ∧
        d' = { d with
          kern := (kernIoctl os d.kern (inp.ioctl 1) fun k =>
            pushVerdict k f.proto f.dst f.dport path v (inp.memory 0)).2 } := by
  simp only [pushSettled] at h
  split at h
  · rename_i path
    split at h
    · rename_i hpush
      obtain ⟨rfl, rfl⟩ := Prod.mk.inj h
      refine .inr ⟨path, rfl, ?_, rfl, rfl⟩
      cases hmode : d.mode with
      | enforcement => rfl
      | visibility => simp [hmode, Mode.enforcing] at hpush
    · obtain ⟨rfl, rfl⟩ := Prod.mk.inj h
      exact .inl ⟨rfl, rfl⟩
  · obtain ⟨rfl, rfl⟩ := Prod.mk.inj h
    exact .inl ⟨rfl, rfl⟩

/-- What the slow path can do. -/
inductive SlowCase (inp : Input) (os : Os) (d : Daemon) (pkt : Packet) (src : Sockaddr) (f : Flow)
    (kern : Option Handle) : Handled → Prop
  | settled {v : KVerdict} {os' : Os} {d' : Daemon}
      (hv : slowVerdict d.pol os.env d.names f.key = v.verdict)
      (h : pushSettled inp os { d with kern, decided := settle d.decided f.key v.verdict } f
        (flowExe os.env f.key) v = (os', d')) :
      SlowCase inp os d pkt src f kern
        ⟨os', d', fate d.mode pkt src (v = .allow) (v = .deny), some v.verdict, .top⟩
  | held {key : AskKey} {p : Prompt} {d' : Daemon} {o : List Output}
      (hv : slowVerdict d.pol os.env d.names f.key = .ask) (hmode : d.mode = .enforcement)
      (h : raise { d with kern } key p = (d', o)) :
      SlowCase inp os d pkt src f kern ⟨os, d', o, some .ask, .top⟩
  | learned {pol : Policy} {ls : List Str}
      (hv : slowVerdict d.pol os.env d.names f.key = .ask) (hmode : d.mode = .visibility)
      (h : d.pol.learned (flowExe os.env f.key) f.dst (d.names.nameFor f.dst) f.dport = (pol, ls)) :
      SlowCase inp os d pkt src f kern
        ⟨os.appendPolicy inp ls, { d with kern, pol }, [.reinject pkt src], some .ask,
          .learning [.readMtime]⟩

omit [Casing] in
/-- Visibility lets every packet through. -/
@[simp] theorem fate_visibility (pkt : Packet) (src : Sockaddr) (allow reject : Bool) :
    fate .visibility pkt src allow reject = [.reinject pkt src] := by
  simp [fate, Mode.enforcing]

omit [Casing] in
@[simp] theorem fate_allow (mode : Mode) (pkt : Packet) (src : Sockaddr) :
    fate mode pkt src true false = [.reinject pkt src] := by
  simp [fate]

omit [Casing] in
/-- Enforcement lets exactly the allowed packets through. -/
theorem mem_fate_enforcement {pkt : Packet} {src : Sockaddr} {allow reject : Bool} :
    Output.reinject pkt src ∈ fate .enforcement pkt src allow reject ↔ allow = true := by
  cases allow <;> cases reject <;> simp [fate, Mode.enforcing]

/-- The handle after the kernel has been asked about a flow. -/
def asksKern (inp : Input) (os : Os) (d : Daemon) (kern : Option Handle) : Prop :=
  kern = d.kern ∨ kern = (kernIoctl os d.kern (inp.ioctl 0) id).2

theorem slowPath_cases (inp : Input) (os : Os) (d : Daemon) (pkt : Packet) (src : Sockaddr)
    (f : Flow) :
    ∃ kern, asksKern inp os d kern ∧ SlowCase inp os d pkt src f kern
      (slowPath inp os d pkt src f) := by
  have hkern : asksKern inp os d (if f.proto = IPPROTO_TCP ∨ f.proto = IPPROTO_UDP then
      (d.kern.map fun h => (os.ioctl h (inp.ioctl 0) id).2) else d.kern) := by
    split
    · right
      cases d.kern <;> rfl
    · exact .inl rfl
  refine ⟨_, hkern, ?_⟩
  generalize hk : (if f.proto = IPPROTO_TCP ∨ f.proto = IPPROTO_UDP then
      (d.kern.map fun h => (os.ioctl h (inp.ioctl 0) id).2) else d.kern) = kern
  simp only [slowPath, hk]
  have settled : ∀ v : KVerdict, slowVerdict d.pol os.env d.names f.key = v.verdict →
      let r := pushSettled inp os { d with kern, decided := settle d.decided f.key v.verdict } f
        (flowExe os.env f.key) v
      SlowCase inp os d pkt src f kern
        ⟨r.1, r.2, fate r.2.mode pkt src (v = .allow) (v = .deny), some v.verdict, .top⟩ := by
    intro v hv r
    rcases hp : r with ⟨os', d'⟩
    have hmode : d'.mode = d.mode := by
      obtain ⟨-, rfl⟩ | ⟨_, -, -, -, rfl⟩ := pushSettled_cases hp <;> rfl
    simp only [hmode]
    exact .settled hv hp
  have held : ∀ key p, slowVerdict d.pol os.env d.names f.key = .ask → d.mode.enforcing = true →
      let r := raise { d with kern } key p
      SlowCase inp os d pkt src f kern
        ⟨os, r.1, r.2 ++ fate r.1.mode pkt src false false, some .ask, .top⟩ := by
    intro key p hv hmode r
    rcases hr : r with ⟨d', o⟩
    have hfate : fate d'.mode pkt src false false = [] := by
      obtain ⟨⟨_, _, rfl⟩, -⟩ := raise_cases hr
      simp [fate, hmode]
    simp only [hfate, List.append_nil]
    exact .held hv (Mode.enforcing_iff.mp hmode) hr
  have learned : slowVerdict d.pol os.env d.names f.key = .ask → ¬ d.mode.enforcing = true →
      let r := d.pol.learned (flowExe os.env f.key) f.dst (d.names.nameFor f.dst) f.dport
      SlowCase inp os d pkt src f kern
        ⟨os.appendPolicy inp r.2, { d with kern, pol := r.1 }, fate d.mode pkt src true false,
          some .ask, .learning [.readMtime]⟩ := by
    intro hv hmode r
    simp only [fate_allow]
    exact .learned hv (Mode.not_enforcing_iff.mp hmode) rfl
  cases hv : slowVerdict d.pol os.env d.names f.key with
  | allow =>
      have hv' := hv
      rw [slowVerdict_key] at hv'
      simp only [hv']
      exact settled .allow hv
  | deny =>
      have hv' := hv
      rw [slowVerdict_key] at hv'
      simp only [hv']
      exact settled .deny hv
  | ask =>
      have hv' := hv
      rw [slowVerdict_key] at hv'
      simp only [hv']
      by_cases hmode : d.mode.enforcing = true
      · simp only [hmode, if_true]
        exact held _ _ hv hmode
      · simp only [hmode, Bool.false_eq_true, if_false]
        exact learned hv hmode

/-- What handling one packet can do. -/
inductive PacketCase (inp : Input) (os : Os) (d : Daemon) (pkt : Packet) (src : Sockaddr) :
    Handled → Prop
  | unjudged (h : ∀ f, parse pkt = some f → ¬ (f.proto = 17 ∧ f.sport = 53) ∧
        (src.addr = 0 → ¬ (f.synOnly = true ∨ f.proto = 17))) :
      PacketCase inp os d pkt src ⟨os, d, [.reinject pkt src], none, .top⟩
  | dns {f : Flow} (hparse : parse pkt = some f) (hdns : f.proto = 17 ∧ f.sport = 53) :
      PacketCase inp os d pkt src
        ⟨os, { d with names := learnNames d.names pkt os.now }, [.reinject pkt src], none, .top⟩
  | fast {f : Flow} {v : Verdict} (hparse : parse pkt = some f)
      (hdns : ¬ (f.proto = 17 ∧ f.sport = 53)) (hsrc : src.addr = 0)
      (hv : d.decided.lookup f.key = some v) :
      PacketCase inp os d pkt src
        ⟨os, d, fate d.mode pkt src (verdictFlags v).1 (verdictFlags v).2, some v, .top⟩
  | slow {f : Flow} {kern : Option Handle} {r : Handled} (hparse : parse pkt = some f)
      (hdns : ¬ (f.proto = 17 ∧ f.sport = 53)) (hsrc : src.addr = 0)
      (hopens : f.synOnly = true ∨ f.proto = 17)
      (hlookup : d.decided.lookup f.key = none) (hkern : asksKern inp os d kern)
      (h : SlowCase inp os d pkt src f kern r) : PacketCase inp os d pkt src r

/-- A packet leaves the waiters, the kernel events and the upcall flag alone. -/
theorem PacketCase.frame {pkt : Packet} {src : Sockaddr} {r : Handled}
    (h : PacketCase inp os d pkt src r) : ∃ names decided kern asking prompts pol,
      r.daemon = { d with names, decided, kern, asking, prompts, pol } := by
  cases h with
  | unjudged | dns | fast => exact ⟨_, _, _, _, _, _, rfl⟩
  | slow _ _ _ _ _ _ h =>
      cases h with
      | settled hv hpush =>
          obtain ⟨-, rfl⟩ | ⟨_, -, -, -, rfl⟩ := pushSettled_cases hpush <;>
            exact ⟨_, _, _, _, _, _, rfl⟩
      | held hv hmode hraise =>
          obtain ⟨⟨_, _, rfl⟩, -⟩ := raise_cases hraise
          exact ⟨_, _, _, _, _, _, rfl⟩
      | learned => exact ⟨_, _, _, _, _, _, rfl⟩

/-- A packet leaves the mode and the watermark alone. -/
theorem PacketCase.keeps {pkt : Packet} {src : Sockaddr} {r : Handled}
    (h : PacketCase inp os d pkt src r) :
    r.daemon.mode = d.mode ∧ r.daemon.fallback = d.fallback ∧ r.daemon.polMtime = d.polMtime := by
  obtain ⟨_, _, _, _, _, _, hframe⟩ := h.frame
  rw [hframe]
  exact ⟨rfl, rfl, rfl⟩

/-- A packet leaves the policy and its file alone, unless its flow is learned. -/
theorem PacketCase.policy {pkt : Packet} {src : Sockaddr} {r : Handled}
    (h : PacketCase inp os d pkt src r) :
    (r.os.policy = os.policy ∧ r.daemon.pol = d.pol ∧ r.next = .top) ∨
      ∃ f kern pol ls, parse pkt = some f ∧ d.mode = .visibility ∧
        d.pol.learned (flowExe os.env f.key) f.dst (d.names.nameFor f.dst) f.dport = (pol, ls) ∧
        r = ⟨os.appendPolicy inp ls, { d with kern, pol }, [.reinject pkt src], some .ask,
          .learning [.readMtime]⟩ := by
  cases h with
  | unjudged | dns | fast => exact .inl ⟨rfl, rfl, rfl⟩
  | slow hparse _ _ _ _ _ h =>
      cases h with
      | settled hv hpush =>
          obtain ⟨rfl, rfl⟩ | ⟨_, -, -, rfl, rfl⟩ := pushSettled_cases hpush
          · exact .inl ⟨rfl, rfl, rfl⟩
          · exact .inl ⟨(Os.sameRest_kernIoctl _ _ _ _).policy, rfl, rfl⟩
      | held hv hmode hraise =>
          obtain ⟨⟨_, _, rfl⟩, -⟩ := raise_cases hraise
          exact .inl ⟨rfl, rfl, rfl⟩
      | learned hv hmode hl => exact .inr ⟨_, _, _, _, hparse, hmode, hl, rfl⟩

/-- After a packet the loop goes on at its top, or with what a learned flow calls for. -/
theorem PacketCase.next {pkt : Packet} {src : Sockaddr} {r : Handled}
    (h : PacketCase inp os d pkt src r) : r.next = .top ∨ r.next = .learning [.readMtime] := by
  obtain ⟨-, -, hnext⟩ | ⟨f, kern, pol, ls, -, -, -, rfl⟩ := h.policy
  · exact .inl hnext
  · exact .inr rfl

theorem handlePacket_cases (inp : Input) (os : Os) (d : Daemon) (pkt : Packet) (src : Sockaddr) :
    PacketCase inp os d pkt src (handlePacket inp os d pkt src) := by
  unfold handlePacket
  cases hparse : parse pkt with
  | none =>
      simp only [fate_allow]
      exact .unjudged (by simp [hparse])
  | some f =>
      simp only
      split
      · rename_i hdns
        exact .dns hparse hdns
      · rename_i hdns
        split
        · rename_i hsrc
          refine .unjudged fun g hg => ?_
          obtain rfl := Option.some.inj (hparse.symm.trans hg)
          exact ⟨hdns, fun h => absurd h hsrc⟩
        · rename_i hsrc
          split
          · rename_i hopens
            cases hlookup : d.decided.lookup f.key with
            | some v => exact .fast hparse hdns (not_not.mp hsrc) hlookup
            | none =>
                obtain ⟨kern, hkern, hslow⟩ := slowPath_cases inp os d pkt src f
                exact .slow hparse hdns (not_not.mp hsrc) hopens hlookup hkern hslow
          · rename_i hflow
            simp only [fate_allow]
            refine .unjudged fun g hg => ?_
            obtain rfl := Option.some.inj (hparse.symm.trans hg)
            exact ⟨hdns, fun _ => hflow⟩

end Pfsnitch
