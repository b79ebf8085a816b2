import Pfsnitch.Daemon.Tick
import Pfsnitch.Lib.Run

/-!
# Pfsnitch.Daemon.System

The system as a whole: the daemon's own steps, its prompt and reader threads,
the kernel module's hook, and everything around them that can happen at any
moment (`World.step`).
-/

namespace Pfsnitch

open Lib

variable [Casing]

/-- What can happen next. -/
inductive Event where
  /-- `kldload`, `kldunload`. -/
  | loadModule
  | unloadModule
  /-- The daemon is started; only one can hold the divert port. -/
  | startDaemon (fallback : Mode)
  /-- The daemon dies. -/
  | crash
  /-- SIGTERM or SIGINT arrives. -/
  | signal
  /-- The daemon's main thread takes its next step. -/
  | daemon (inp : Input)
  /-- The `i`-th prompt program ends with an answer. -/
  | promptDone (i : Nat) (ans : Answer)
  /-- The `i`-th reader thread returns from `read`; the copy may fault. -/
  | readerRead (i : Nat) (fault : Bool)
  /-- The `i`-th reader thread sends what it has read. -/
  | readerSend (i : Nat)
  /-- The `i`-th reader thread's `read` is interrupted. -/
  | readerExit (i : Nat)
  /-- A process connects or sends. -/
  | hook (so : Socket) (sa : SockAddr) (memory : Bool)
  /-- Somebody else writes or removes the policy file. -/
  | editPolicy (file : Option PolicyFile)
  /-- Processes, sockets or binaries change. -/
  | changeEnv (env : Env)
  /-- Time passes. -/
  | wait (ms : Nat)
  /-- The rc script or the watchdog loads or flushes the `udpdivert` anchor. -/
  | pfAnchor (loaded : Bool)
  /-- `sysctl security.mac.pfsnitch.failmode`. -/
  | setFailmode (m : FailMode)
  /-- `pfsnitch kernel-reset`. -/
  | kernelReset

/-! ## the daemon's own steps -/

omit [Casing] in
/-- What start-up does before the loop. -/
def startOps : List Op := [.loadPolicy, .openBackend, .readMtime, .bind]

omit [Casing] in
/-- What a tick does. -/
def tickOps : List Op := [.reopen, .checkMtime, .reconcile]

omit [Casing] in
/-- What a graceful shutdown does. -/
def stopOps (upcallOn : Bool) : List Op :=
  [.setUpcall false, .flushVerdicts] ++ if upcallOn then [.setUdpDivert true] else []

/-- A daemon that has just been started. -/
def Daemon.new (fallback : Mode) (now : Nat) : Daemon where
  fallback := fallback
  pol := .initial
  mode := fallback
  kern := none
  polMtime := none
  lastCheck := now
  shutdown := false
  rx := []
  urx := []
  upcallOn := false
  pendingUpcalls := ∅
  names := .empty
  asking := ∅
  decided := ∅
  prompts := []
  readers := []
  pc := .starting startOps

/-- Take one effect, and go on with what it asks for and with the rest. -/
def runOp (op : Op) (rest : List Op) (next : List Op → Pc) (inp : Input) (os : Os) (d : Daemon) :
    World :=
  let (os, d, extra) := op.run inp os d
  ⟨os, d.map fun d => { d with pc := next (extra ++ rest) }⟩

/-- One step of the daemon's main thread. -/
def Daemon.step (inp : Input) (os : Os) (d : Daemon) : World × List Output :=
  match d.pc with
  | .starting [] => (⟨os, some { d with pc := .top }⟩, [])
  | .starting (op :: rest) => (runOp op rest .starting inp os d, [])
  | .top =>
    if d.shutdown then (⟨os, some { d with pc := .stopping (stopOps d.upcallOn) }⟩, [])
    else (⟨os, some { d with pc := .answers }⟩, [])
  | .answers =>
    match d.rx with
    | [] => (⟨os, some { d with pc := .upcalls }⟩, [])
    | (ans, p) :: rx =>
      let (os, d) := drainAnswer inp os { d with rx } ans p
      (⟨os, some d⟩, [])
  | .upcalls =>
    match d.urx with
    | [] => (⟨os, some { d with pc := .timers }⟩, [])
    | ev :: urx =>
      let (os, d, outs) := drainUpcall inp os { d with urx } ev
      (⟨os, some d⟩, outs)
  | .timers =>
    if os.now - d.lastCheck ≥ 1000 then
      (⟨os, some { d with lastCheck := os.now, pc := .ticking false tickOps }⟩, [])
    else (⟨os, some { d with pc := .recv }⟩, [])
  | .ticking _ [] => (⟨os, some { d with pc := .recv }⟩, [])
  | .ticking reloaded (op :: rest) =>
    (runOp op rest (.ticking (reloaded || op = .reload)) inp os d, [])
  | .recv =>
    match inp.packet with
    | none => (⟨os, some { d with pc := .top }⟩, [])
    | some (pkt, src) =>
      let r := handlePacket inp os d pkt src
      (⟨r.os, some { r.daemon with pc := r.next }⟩, r.outs)
  | .learning [] => (⟨os, some { d with pc := .top }⟩, [])
  | .learning (op :: rest) => (runOp op rest .learning inp os d, [])
  | .stopping [] => (⟨closeAll os d, none⟩, [])
  | .stopping (op :: rest) => (runOp op rest .stopping inp os d, [])

/-! ## the threads -/

omit [Casing] in
/-- A prompt program has ended: its thread sends the answer and is gone. -/
def Daemon.promptDone (d : Daemon) (i : Nat) (ans : Answer) : Option Daemon :=
  (d.prompts[i]?).map fun p =>
    { d with prompts := d.prompts.eraseIdx i, rx := d.rx ++ [(ans, p.pending)] }

omit [Casing] in
/-- The event a request is delivered as. -/
def Req.event (r : Req) : KernEvent where
  id := r.id
  proto := r.key.proto
  dst := r.key.addr
  dport := r.key.fport
  nonblock := r.nonblock
  pid := r.pid
  uid := r.uid
  path := utf8Lossy r.key.path

omit [Casing] in
/-- A reader thread ends and its descriptor is closed. -/
def dropReader (os : Os) (d : Daemon) (i : Nat) (r : Reader) : World :=
  let d := { d with readers := d.readers.eraseIdx i }
  ⟨os.closed r.gen (d.holdsDevice r.gen), some d⟩

omit [Casing] in
/-- `read_event` on a descriptor: end of file and errors end the thread. -/
def readerRead (os : Os) (d : Daemon) (i : Nat) (fault : Bool) : Option World :=
  match d.readers[i]? with
  | none => none
  | some r =>
    if r.started = false ∨ r.holding.isSome then none
    else
      match os.reach r.gen with
      | none => some (dropReader os d i r)
      | some k =>
        match k.read with
        | (.eof, _) => some (dropReader os d i r)
        | (.wait, _) => none
        | (.event q, k') =>
          -- a fault puts the request back, and the thread ends on the error
          if fault then some (dropReader os d i r)
          else some ⟨{ os with kmod := some k' },
            some { d with readers := d.readers.set i { r with holding := some q.event } }⟩

omit [Casing] in
/-- The reader sends what it holds to the main thread. -/
def readerSend (d : Daemon) (i : Nat) : Option Daemon :=
  match d.readers[i]? with
  | some r =>
    r.holding.map fun ev =>
      { d with readers := d.readers.set i { r with holding := none }, urx := d.urx ++ [ev] }
  | none => none

omit [Casing] in
/-- A waiting `read` is interrupted, and the thread ends. -/
def readerExit (os : Os) (d : Daemon) (i : Nat) : Option World :=
  match d.readers[i]? with
  | some r => if r.started = true ∧ r.holding = none then some (dropReader os d i r) else none
  | none => none

/-! ## the system -/

omit [Casing] in
/-- Change the module, if it is loaded. -/
def Os.mapKmod (os : Os) (f : KMod → KMod) : Os := { os with kmod := os.kmod.map f }

namespace World

omit [Casing] in
/-- The hook as a process meets it; without the module there is none. -/
def hook (w : World) (so : Socket) (sa : SockAddr) (memory : Bool) : World × List Output :=
  match w.os.kmod with
  | none => (w, [.hook .pass])
  | some k =>
    let (r, k) := k.checkConnect so sa memory (w.os.now / 1000)
    ({ w with os := { w.os with kmod := some k } }, [.hook r])

/-- One step of the system; `none` when the event cannot happen now. -/
def step (w : World) : Event → Option (World × List Output)
  | .loadModule =>
    match w.os.kmod with
    | none => some ({ w with os := { w.os with kmod := some {}, gen := w.os.gen + 1 } }, [])
    | some _ => none
  | .unloadModule =>
    w.os.kmod.map fun _ => ({ w with os := { w.os with kmod := none } }, [])
  | .startDaemon fallback =>
    match w.daemon with
    | none => some ({ w with daemon := some (.new fallback w.os.now) }, [])
    | some _ => none
  | .crash => w.daemon.map fun d => (⟨closeAll w.os d, none⟩, [])
  | .signal => w.daemon.map fun d => ({ w with daemon := some { d with shutdown := true } }, [])
  | .daemon inp => w.daemon.map fun d => d.step inp w.os
  | .promptDone i ans =>
    w.daemon.bind fun d => (d.promptDone i ans).map fun d => ({ w with daemon := some d }, [])
  | .readerRead i fault =>
    w.daemon.bind fun d => (Pfsnitch.readerRead w.os d i fault).map fun w => (w, [])
  | .readerSend i =>
    w.daemon.bind fun d => (Pfsnitch.readerSend d i).map fun d => ({ w with daemon := some d }, [])
  | .readerExit i =>
    w.daemon.bind fun d => (Pfsnitch.readerExit w.os d i).map fun w => (w, [])
  | .hook so sa memory => some (w.hook so sa memory)
  | .editPolicy file => some ({ w with os := { w.os with policy := file } }, [])
  | .changeEnv env => some ({ w with os := { w.os with env } }, [])
  | .wait ms => some ({ w with os := { w.os with now := w.os.now + ms } }, [])
  | .pfAnchor loaded => some ({ w with os := { w.os with udpdivert := loaded } }, [])
  | .setFailmode m => some ({ w with os := w.os.mapKmod fun k => { k with failmode := m } }, [])
  | .kernelReset =>
    some ({ w with os := w.os.mapKmod fun k => (k.upcallSet false).verdictFlush }, [])

end World

omit [Casing] in
/-- Before anything has happened: no module, no daemon, anything else as it may be. -/
def World.Initial (w : World) : Prop := w.os.kmod = none ∧ w.daemon = none

/-- A state some run from an initial world reaches, all of whose steps meet `ok`. -/
def Reachable (ok : World → Event → Prop) (w : World) : Prop :=
  ∃ w₀, w₀.Initial ∧ Run World.step ok w₀ w

omit [Casing] in
theorem World.Initial.no_daemon {w : World} (h : w.Initial) {P : Daemon → Prop} :
    ∀ d, w.daemon = some d → P d := by
  intro d hd
  rw [h.2] at hd
  cases hd

/-! ## bringing the system up -/

omit [Casing] in
/-- A machine on which nothing runs yet, with UDP on divert. -/
def World.idle : World where
  os := {
    kmod := none
    gen := 0
    udpdivert := true
    policy := none
    env := ⟨fun _ => none, fun _ => none⟩
    now := 0 }
  daemon := none

/-- Executing events from an initial world ends in a world they reach. -/
theorem exists_reachable_by_exec (ok : World → Event → Prop) [∀ w ev, Decidable (ok w ev)]
    (w₀ : World) (hinit : w₀.Initial) (evs : List Event) (p : World → Bool)
    (h : (exec World.step ok w₀ evs).any p = true) :
    ∃ w, Reachable (fun w ev => ok w ev ∧ ev ∈ evs) w ∧ p w = true := by
  obtain ⟨w, hrun, hp⟩ := exists_run_of_exec h
  exact ⟨w, ⟨w₀, hinit, hrun⟩, hp⟩

theorem Reachable.mono {ok ok' : World → Event → Prop} {w : World} (h : Reachable ok w)
    (hok : ∀ w ev, ok w ev → ok' w ev) : Reachable ok' w := by
  obtain ⟨w₀, hinit, hrun⟩ := h
  exact ⟨w₀, hinit, hrun.mono hok⟩

theorem exists_reachable_of_exec (ok : World → Event → Prop) [∀ w ev, Decidable (ok w ev)]
    (w₀ : World) (hinit : w₀.Initial) (evs : List Event) (p : World → Bool)
    (h : (exec World.step ok w₀ evs).any p = true) : ∃ w, Reachable ok w ∧ p w = true := by
  obtain ⟨w, hw, hp⟩ := exists_reachable_by_exec ok w₀ hinit evs p h
  exact ⟨w, hw.mono fun _ _ => And.left, hp⟩

omit [Casing] in
/-- The same machine, with a policy file. -/
def World.withPolicy (text : String) : World :=
  { World.idle with os := { World.idle.os with policy := some (.ofText text.toList 1) } }

omit [Casing] in
/-- Start the daemon and let its main thread take `n` steps. -/
def startEvents (mode : Mode) (n : Nat) : List Event :=
  .startDaemon mode :: List.replicate n (.daemon {})

omit [Casing] in
/-- Load the module, start the daemon in enforcement under a policy that names
the kernel backend, and let one tick turn the upcall on. -/
def kernelEvents : List Event :=
  .loadModule :: startEvents .enforcement 6 ++ [.wait 1000] ++ List.replicate 14 (.daemon {})

omit [Casing] in
/-- `/a` sends a datagram to 192.0.2.1. -/
def sendEvent (port : UInt16) : Event :=
  .hook ⟨.dgram, some ⟨7, 0, [0x2f, 0x61]⟩, false⟩ (.inet (.v4 ⟨192, 0, 2, 1⟩) port) true

omit [Casing] in
/-- The key of a datagram from `/a` to 192.0.2.1, port 443. -/
def missKey : VKey := ⟨IPPROTO_UDP, .v4 ⟨192, 0, 2, 1⟩, 443, [0x2f, 0x61]⟩

omit [Casing] in
/-- `/a` sends to some ports, the reader hands the misses on, and the main
thread goes once through its loop. -/
def missEvents (ports : List UInt16) : List Event :=
  ports.map sendEvent ++ ports.flatMap (fun _ => [.readerRead 0 false, .readerSend 0]) ++
    List.replicate (5 + ports.length) (.daemon {})

omit [Casing] in
/-- The policy file is replaced, a second passes, and the main thread takes `n`
steps. -/
def editEvents (text : String) (n : Nat) : List Event :=
  .editPolicy (some (.ofText text.toList 2)) :: .wait 1000 :: List.replicate n (.daemon {})

omit [Casing] in
/-- The device does not fail in a step. -/
def Untroubled : Event → Prop
  | .daemon inp => (∀ n, inp.ioctl n = .ok) ∧ inp.openOk = true
  | _ => True

omit [Casing] in
theorem untroubled_replicate (n : Nat) : ∀ ev ∈ List.replicate n (.daemon {}), Untroubled ev := by
  intro ev hev
  rw [List.eq_of_mem_replicate hev]
  exact ⟨fun _ => rfl, rfl⟩

omit [Casing] in
theorem untroubled_kernelEvents : ∀ ev ∈ kernelEvents, Untroubled ev := by
  simp only [kernelEvents, startEvents, List.mem_append, List.mem_cons, List.not_mem_nil, or_false]
  rintro ev (((rfl | rfl | h) | rfl) | h)
  · trivial
  · trivial
  · exact untroubled_replicate _ ev h
  · trivial
  · exact untroubled_replicate _ ev h

omit [Casing] in
theorem untroubled_missEvents (ports : List UInt16) : ∀ ev ∈ missEvents ports, Untroubled ev := by
  simp only [missEvents, List.mem_append, List.mem_map, List.mem_flatMap, List.mem_cons,
    List.not_mem_nil, or_false]
  rintro ev ((⟨port, -, rfl⟩ | ⟨port, -, rfl | rfl⟩) | h)
  · trivial
  · trivial
  · trivial
  · exact untroubled_replicate _ ev h

omit [Casing] in
theorem untroubled_editEvents (text : String) (n : Nat) :
    ∀ ev ∈ editEvents text n, Untroubled ev := by
  simp only [editEvents, List.mem_cons]
  rintro ev (rfl | rfl | h)
  · trivial
  · trivial
  · exact untroubled_replicate _ ev h

end Pfsnitch
