import Pfsnitch.Daemon.Frame
import Pfsnitch.Daemon.Kernattr
import Pfsnitch.Identity
import Pfsnitch.Procinfo.Resolver

/-!
# Pfsnitch.Daemon.Attributed

The system with what the daemon remembers of processes and binaries: `res`, the `Resolver`
with the socket tables of its last scan, and `ident`, the `Identity` with the digests of the
binaries it has hashed.

A step of the main thread attributes one flow at most, and hashes one binary at most.  What
the kernel, the resolver and the identity answer is the `Env` that the step runs with
(`Host.answers`), so that a run of a `Host` is one of its `World` (`Host.reachable_world`), and
what holds in every run of the one holds in every run of the other.  Beside these answers
stand those that nothing remembered has a part in (`Host.current`).
-/

namespace Pfsnitch

open Lib

/-! ## flows and owners -/

/-- `procinfo::Tuple`, of a flow. -/
def flowTuple (flow : FlowKey) : Procinfo.Tuple :=
  ⟨flow.1, flow.2.1, flow.2.2.1, flow.2.2.2.1, flow.2.2.2.2⟩

namespace Procinfo

/-- `Confidence::as_str`. -/
def Confidence.asStr : Confidence → Str
  | .kernel => "kernel".toList
  | .exact => "exact".toList
  | .localAddr => "local".toList
  | .port => "port".toList

/-- What the main thread makes of an attribution. -/
def Attribution.named (a : Attribution) : Pfsnitch.Attribution :=
  ⟨a.owner.pid, a.owner.command, a.owner.path, a.confidence.asStr⟩

end Procinfo

/-- A digest as it is printed. -/
def Digest.ofText (s : Str) : Option Digest :=
  if h : (∀ c ∈ s, c ∈ "0123456789abcdef".toList) ∧ s ≠ [] then some ⟨s, h.1, h.2⟩ else none

theorem Digest.ofText_text (d : Digest) : ofText d.text = some d := by
  rw [ofText, dif_pos ⟨d.hex, d.ne_nil⟩]

/-- The flow that the main thread judges by the policy, if this step judges one. -/
def Daemon.judged (d : Daemon) (inp : Input) : Option Flow :=
  match d.pc, inp.packet with
  | .recv, some (pkt, src) => (parse pkt).filter fun f =>
      ¬ (f.proto = 17 ∧ f.sport = 53) ∧ src.addr = 0 ∧ (f.synOnly = true ∨ f.proto = 17) ∧
        d.decided.lookup f.key = none
  | _, _ => none

/-- The binary that the main thread hashes in this step, if it hashes one: that of an answer
that approves, or a pinned one that is judged. -/
def Daemon.hashed (d : Daemon) (inp : Input) (env : Env) : Option Str :=
  match d.pc with
  | .answers => d.rx.head?.bind fun a => if a.1.approves then a.2.exe else none
  | .upcalls => d.urx.head?.bind fun ev =>
      if ev.path ≠ [] ∧ (d.pol.expectedId ev.path).isSome then some ev.path else none
  | .recv => (d.judged inp).bind fun f =>
      (flowExe env f.key).filter fun exe => (d.pol.expectedId exe).isSome
  | _ => none

/-! ## the host -/

/-- The system, the processes and binaries on it, and what the daemon remembers of them. -/
structure Host where
  world : World
  machine : Procinfo.Machine
  /-- Whom the module names as the creator of the socket of a flow. -/
  creators : Procinfo.Tuple → Option Procinfo.Owner
  /-- The files, and `ident`. -/
  binaries : Identity.World
  /-- `res`. -/
  res : Procinfo.Resolver

/-- Which of the calls for a binary's digest succeed in a step. -/
structure Checks where
  statOk : Bool := true
  runOk : Bool := true
deriving DecidableEq

namespace Host

/-- What can happen next. -/
inductive Event where
  /-- Something around the main thread. -/
  | around (ev : Pfsnitch.Event)
  /-- The main thread takes its next step. -/
  | daemon (inp : Input) (checks : Checks)
  /-- Processes open, close and pass on sockets. -/
  | processes (machine : Procinfo.Machine) (creators : Procinfo.Tuple → Option Procinfo.Owner)
  /-- The file at a path is replaced, or removed. -/
  | replace (path : Str) (file : Option Identity.Version)

/-- The main thread's steps and what it is told are not around it. -/
def isAround : Pfsnitch.Event → Bool
  | .daemon _ | .changeEnv _ => false
  | _ => true

/-- A daemon that is started remembers nothing, and a module that is gone names nobody. -/
def renewed (s : Host) : Pfsnitch.Event → Host
  | .startDaemon _ => { s with res := .new, binaries := { s.binaries with ident := .new } }
  | .unloadModule => { s with creators := fun _ => none }
  | _ => s

/-- The processes change; what the module names changes with them, if it is there. -/
def reopened (s : Host) (machine : Procinfo.Machine)
    (creators : Procinfo.Tuple → Option Procinfo.Owner) : Host :=
  { s with machine, creators := if s.world.os.kmod.isSome then creators else s.creators }

/-- The file at a path is another, or gone. -/
def replaced (s : Host) (path : Str) (file : Option Identity.Version) : Host :=
  { s with binaries :=
    { s.binaries with files := Function.update s.binaries.files path file } }

/-- `k.query`: whom the module names, if the question reaches it. -/
def query (s : Host) (kern : Option Handle) (out : IoctlOutcome) (t : Procinfo.Tuple) :
    Option Procinfo.Attribution :=
  if (Kernattr.query t).isSome ∧ out = .ok ∧
      (kern.any fun k => !k.dead && (s.world.os.reach k.gen).isSome) = true then
    (s.creators t).map (⟨·, .kernel⟩)
  else none

/-- `res.resolve`, at this moment. -/
def resolve (s : Host) (t : Procinfo.Tuple) : Procinfo.Resolved :=
  s.res.resolve (s.world.os.now * 1000000) s.machine t true

/-- Who owns a flow: the kernel is asked first. -/
def attributed (s : Host) (kern : Option Handle) (out : IoctlOutcome) (t : Procinfo.Tuple) :
    Option Procinfo.Attribution :=
  (s.query kern out t).or (s.resolve t).found

section

variable (sha256 : List UInt8 → Digest)

/-- `ident.hash`, at this moment. -/
def hash (s : Host) (checks : Checks) (path : Str) : Identity × Option Str :=
  Identity.Call.run sha256 ⟨path, checks.statOk, checks.runOk⟩ s.binaries

/-- What a step of the main thread is told. -/
def answers (s : Host) (inp : Input) (checks : Checks) (d : Daemon) : Env where
  owner flow := (s.attributed d.kern (inp.ioctl 0) (flowTuple flow)).map (·.named)
  hash path := (s.hash sha256 checks path).2.bind Digest.ofText

/-- What the main thread would be told if nothing was remembered and no call failed: the
creator, if the policy asks the kernel and the module knows one, or else the owner that a scan
would find, and the digest of the file. -/
def current (s : Host) (pol : Policy) : Env where
  owner flow :=
    let t := flowTuple flow
    let created := if pol.attributionMode = .kernel ∧ (Kernattr.query t).isSome then
      (s.creators t).map (⟨·, .kernel⟩) else none
    (created.or ((Procinfo.snapshot s.machine).get t true)).map (·.named)
  hash path := (s.binaries.files path).map fun v => sha256 v.content

/-- `res` after a step: the resolver is asked when the kernel does not answer. -/
def resolver (s : Host) (inp : Input) (d : Daemon) : Procinfo.Resolver :=
  match d.judged inp with
  | some f =>
    let t := flowTuple f.key
    if (s.query d.kern (inp.ioctl 0) t).isSome then s.res else (s.resolve t).resolver
  | none => s.res

/-- `ident` after a step. -/
def identity (s : Host) (inp : Input) (checks : Checks) (d : Daemon) : Identity :=
  match d.hashed inp (s.answers sha256 inp checks d) with
  | some path => (s.hash sha256 checks path).1
  | none => s.binaries.ident

/-- The operating system as a step of the main thread meets it. -/
def told (s : Host) (inp : Input) (checks : Checks) (d : Daemon) : Os :=
  { s.world.os with env := s.answers sha256 inp checks d }

variable [Casing]

/-- One step; `none` when the event cannot happen now. -/
def step (s : Host) : Event → Option (Host × List Output)
  | .around ev =>
    if isAround ev then (s.world.step ev).map fun r => ({ s.renewed ev with world := r.1 }, r.2)
    else none
  | .daemon inp checks =>
    s.world.daemon.map fun d =>
      let r := d.step inp (s.told sha256 inp checks d)
      ({ s with
        world := r.1
        res := s.resolver inp d
        binaries := { s.binaries with ident := s.identity sha256 inp checks d } }, r.2)
  | .processes machine creators => some (s.reopened machine creators, [])
  | .replace path file => some (s.replaced path file, [])

omit [Casing] in
/-- Before anything has happened: no module, and so nobody it names, and no daemon, and so
nothing it remembers. -/
structure Initial (s : Host) : Prop where
  world : s.world.Initial
  creators : ∀ t, s.creators t = none
  res : s.res = .new
  ident : s.binaries.ident = .new

/-- A state some run from an initial one reaches, all of whose steps meet `ok`. -/
def Reachable (ok : Host → Event → Prop) (s : Host) : Prop :=
  ∃ s₀ : Host, s₀.Initial ∧ Run (step sha256) ok s₀ s

variable {sha256} {s s' : Host} {ev : Event} {o : List Output}

/-- What a step of the main thread is. -/
theorem step_daemon {inp : Input} {checks : Checks}
    (h : s.step sha256 (.daemon inp checks) = some (s', o)) :
    ∃ d w, s.world.daemon = some d ∧ d.step inp (s.told sha256 inp checks d) = (w, o) ∧
      s' = { s with
        world := w
        res := s.resolver inp d
        binaries := { s.binaries with ident := s.identity sha256 inp checks d } } := by
  obtain ⟨d, hd, hs⟩ := Option.map_eq_some_iff.mp h
  obtain ⟨rfl, rfl⟩ := Prod.mk.inj hs
  exact ⟨d, _, hd, rfl, rfl⟩

/-- What a step around it is. -/
theorem step_around {ev : Pfsnitch.Event} (h : s.step sha256 (.around ev) = some (s', o)) :
    isAround ev = true ∧ ∃ w, s.world.step ev = some (w, o) ∧ s' = { s.renewed ev with world := w } := by
  simp only [step] at h
  split at h
  · rename_i haround
    obtain ⟨⟨w, o'⟩, hw, hs⟩ := Option.map_eq_some_iff.mp h
    obtain ⟨rfl, rfl⟩ := Prod.mk.inj hs
    exact ⟨haround, w, hw, rfl⟩
  · cases h

/-- A step is one of the system, after a change of the environment if it is the main thread's,
or leaves the system alone. -/
theorem step_world (h : s.step sha256 ev = some (s', o)) :
    Run World.step (fun _ _ => True) s.world s'.world := by
  cases ev with
  | around ev =>
      obtain ⟨-, w, hw, rfl⟩ := step_around h
      exact .single trivial hw
  | daemon inp checks =>
      obtain ⟨d, w, hd, hstep, rfl⟩ := step_daemon h
      have henv : s.world.step (.changeEnv (s.answers sha256 inp checks d)) =
          some (⟨s.told sha256 inp checks d, s.world.daemon⟩, []) := rfl
      refine .tail (.single trivial henv) (i := .daemon inp) (o := o) trivial ?_
      rw [World.step, hd, Option.map_some, hstep]
  | processes | replace =>
      obtain ⟨rfl, -⟩ := Prod.mk.inj (Option.some.inj h)
      exact .refl

/-- What holds in every run of the system holds in every run of a host. -/
theorem reachable_world {ok : Host → Event → Prop} (h : s.Reachable sha256 ok) :
    Pfsnitch.Reachable (fun _ _ => True) s.world := by
  obtain ⟨s₀, hinit, hrun⟩ := h
  refine ⟨s₀.world, hinit.world, ?_⟩
  exact hrun.invariant (P := fun s => Run World.step (fun _ _ => True) s₀.world s.world) .refl
    fun t i u o ht _ hstep => ht.trans (step_world hstep)

/-! ## digests -/

/-- A step leaves the digests kept those of the versions they were made from. -/
theorem step_follows (h : s.step sha256 ev = some (s', o))
    (hinv : ∃ r, Identity.Follows sha256 s.binaries r) :
    ∃ r, Identity.Follows sha256 s'.binaries r := by
  obtain ⟨r, hr⟩ := hinv
  cases ev with
  | around ev =>
      obtain ⟨-, w, -, rfl⟩ := step_around h
      cases ev with
      | startDaemon => exact ⟨⟨s.binaries.files, ∅⟩, rfl, remembers_empty⟩
      | _ => exact ⟨r, hr⟩
  | daemon inp checks =>
      obtain ⟨d, w, -, -, rfl⟩ := step_daemon h
      simp only [identity]
      split
      · exact ⟨_, (hr.call _).2⟩
      · exact ⟨r, hr⟩
  | processes =>
      obtain ⟨rfl, -⟩ := Prod.mk.inj (Option.some.inj h)
      exact ⟨r, hr⟩
  | replace path file =>
      obtain ⟨rfl, -⟩ := Prod.mk.inj (Option.some.inj h)
      exact ⟨_, hr.step (.replace path file)⟩

/-- What `ident` reports is a digest, and a step is told just that. -/
theorem answers_hash {ok : Host → Event → Prop} (h : s.Reachable sha256 ok) (inp : Input)
    (checks : Checks) (d : Daemon) (path : Str) :
    ((s.answers sha256 inp checks d).hash path).map Digest.text = (s.hash sha256 checks path).2 := by
  obtain ⟨s₀, hinit, hrun⟩ := h
  have hstart : ∃ r, Identity.Follows sha256 s₀.binaries r :=
    ⟨⟨s₀.binaries.files, ∅⟩, rfl, hinit.ident ▸ remembers_empty⟩
  obtain ⟨r, hr⟩ := hrun.invariant hstart fun _ _ _ _ hinv _ hstep => step_follows hstep hinv
  have hdigest : ∀ x ∈ (s.hash sha256 checks path).2, ∃ digest : Digest, x = digest.text := by
    intro x hx
    cases hr.outcome ⟨path, checks.statOk, checks.runOk⟩ with
    | silent hrun =>
        rw [Host.hash, hrun] at hx
        cases hx
    | repeats v g _ _ _ _ hrun | makes v g _ _ _ hrun =>
        rw [Host.hash, hrun] at hx
        exact ⟨_, (Option.some.inj hx).symm⟩
  have hanswer : (s.answers sha256 inp checks d).hash path =
      (s.hash sha256 checks path).2.bind Digest.ofText := rfl
  rw [hanswer]
  cases hreport : (s.hash sha256 checks path).2 with
  | none => rfl
  | some x =>
      obtain ⟨digest, rfl⟩ := hdigest x hreport
      rw [Option.bind_some, Digest.ofText_text, Option.map_some]

end

end Host

end Pfsnitch
