import Pfsnitch.Daemon.Drain

/-!
# Pfsnitch.Daemon.Tick

The effects of start-up, of the one-second tick and of shutdown, one at a time
(`Op.run`).  An effect may ask for further effects, which come before what was
still to do.
-/

namespace Pfsnitch

open Lib

variable [Casing]

omit [Casing] in
/-- The effects that turn the upcall off and put UDP back on divert. -/
def teardown : List Op := [.setUpcall false, .markOff, .setUdpDivert true]

omit [Casing] in
/-- The effects that turn the upcall on once the reader is open. -/
def enable : List Op := [.setUpcall true, .spawnReader, .markOn, .setUdpDivert false]

omit [Casing] in
/-- Is the upcall wanted: with the kernel backend, in enforcement. -/
def Daemon.wantUpcall (d : Daemon) : Bool := d.kern.isSome && d.mode.enforcing

/-- The policy and the mode from the file. -/
def Daemon.loadFrom (d : Daemon) (os : Os) : Daemon :=
  let pol := Policy.loadFile os.policyData
  { d with pol, mode := pol.modeOr d.fallback }

omit [Casing] in
/-- `kern_backend`, up to the flush: the old handle is closed when it is
replaced, the new one is flushed next. -/
def kernBackend (inp : Input) (os : Os) (d : Daemon) : Os × Daemon × List Op :=
  let fresh := if d.pol.attributionMode = .kernel then openDevice os inp.openOk else none
  let d' := { d with kern := fresh }
  let os := match d.kern with
    | some h => os.closed h.gen (d'.holdsDevice h.gen)
    | none => os
  (os, d', if fresh.isSome then [.flushVerdicts] else [])

omit [Casing] in
/-- The first block of the tick: a dead handle is dropped, a missing one is
opened, while the policy asks for the kernel. -/
def reopenBackend (inp : Input) (os : Os) (d : Daemon) : Os × Daemon × List Op :=
  if d.pol.attributionMode = .kernel then
    match d.kern with
    | some h => if h.dead then let (os, d) := closeKern os d; (os, d, []) else (os, d, [])
    | none =>
      match openDevice os inp.openOk with
      | some h => (os, { d with kern := some h }, [.flushVerdicts])
      | none => (os, d, [])
  else (os, d, [])

/-- The reload of a changed file, up to the closing flush. -/
def reloadPolicy (os : Os) (d : Daemon) : Daemon × List Op :=
  let d' := d.loadFrom os
  -- the upcall is torn down before the handle is replaced
  let switch := if d'.pol.attributionMode ≠ d.pol.attributionMode then
      (if d.upcallOn then teardown else []) ++ [.openBackend]
    else []
  (d', switch ++ [.clearDecided, .flushVerdicts])

/-- One effect; `none` for the daemon means that it has exited. -/
def Op.run (op : Op) (inp : Input) (os : Os) (d : Daemon) : Os × Option Daemon × List Op :=
  match op with
  | .loadPolicy => (os, some (d.loadFrom os), [])
  | .openBackend => let (os, d, ops) := kernBackend inp os d; (os, some d, ops)
  | .flushVerdicts =>
    let (os, kern) := kernIoctl os d.kern (inp.ioctl 0) KMod.verdictFlush
    (os, some { d with kern }, [])
  | .readMtime => (os, some { d with polMtime := os.policyMtime }, [])
  | .bind => if inp.bindOk then (os, some d, []) else (closeAll os d, none, [])
  | .reopen => let (os, d, ops) := reopenBackend inp os d; (os, some d, ops)
  | .checkMtime =>
    if os.policyMtime ≠ d.polMtime then
      (os, some { d with polMtime := os.policyMtime }, [.reload])
    else (os, some d, [])
  | .reload => let (d, ops) := reloadPolicy os d; (os, some d, ops)
  | .clearDecided => (os, some { d with decided := ∅ }, [])
  | .reconcile =>
    if d.wantUpcall && !d.upcallOn then (os, some d, [.openReader])
    else if !d.wantUpcall && d.upcallOn then (os, some d, teardown)
    else (os, some d, [])
  | .openReader =>
    match openDevice os inp.openOk with
    | some h => (os, some { d with readers := d.readers ++ [⟨h.gen, false, none⟩] }, enable)
    | none => (os, some d, [])
  | .setUpcall on =>
    let (os, kern) := kernIoctl os d.kern (inp.ioctl 0) fun k => k.upcallSet on
    (os, some { d with kern }, [])
  | .spawnReader => (os, some { d with readers := d.readers.map fun r => { r with started := true } }, [])
  | .markOn => (os, some { d with upcallOn := true }, [])
  | .markOff => (os, some { d with upcallOn := false, pendingUpcalls := ∅ }, [])
  | .setUdpDivert divert =>
    (if inp.pfctlOk then { os with udpdivert := divert } else os, some d, [])

end Pfsnitch
