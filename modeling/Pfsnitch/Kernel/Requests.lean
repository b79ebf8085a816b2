import Pfsnitch.Kernel.Queue
import Pfsnitch.Lib.Linked
import Pfsnitch.Lib.Monitor

/-!
# Pfsnitch.Kernel.Requests

The queue of upcall requests in memory, the threads in `pfsn_read`, and the unloading of the
module.

A request is a block that `malloc` has given and that is linked into `pfsn_reqs`; everything
here happens under `pfsn_pmtx`.  A thread in `pfsn_read` sleeps on `pfsn_reqs`, and copies an
event out with the lock free; then the request may be gone, and a copy that failed looks for
it by its id.
-/

namespace Pfsnitch

open Lib

/-! ## memory -/

/-- What `pfsn_pmtx` protects, and the verdict cache. -/
structure Requests where
  ledger : Ledger Nat Req := .empty
  cache : VCache := Table.empty
  nextId : Nat := 1
  nreq : Nat := 0
  unloading : Bool := false
  upcallOn : Bool := false
  failmode : FailMode := .fopen

namespace Requests

/-- The state of the module that this stands for. -/
def abs (m : Requests) : KMod where
  cache := m.cache
  reqs := m.ledger.contents
  nextId := m.nextId
  nreq := m.nreq
  unloading := m.unloading
  upcallOn := m.upcallOn
  failmode := m.failmode

/-- `pfsn_req_gc`. -/
def reqGc (m : Requests) (now : Nat) : Except Fault Requests :=
  match Ledger.sweep (fun r => decide (now - r.born > PFSN_REQ_GCAGE)) m.ledger.all m.ledger with
  | .ok l => .ok { m with ledger := l, nreq := m.nreq - (m.ledger.all.length - l.all.length) }
  | .error e => .error e

/-- `pfsn_upcall`; the last is whether it wakes the readers. -/
def upcall (malloc : Malloc Nat Req) (m : Requests) (proto : UInt8) (addr : IpAddr) (fport : UInt16)
    (info : PfsnInfo) (nonblock memory : Bool) (now : Nat) :
    Except Fault (HookResult × Requests × Bool) :=
  let key : VKey := ⟨proto, addr, fport, info.path⟩
  if info.path = [] ∨ info.path.length ≥ 1024 then .ok (.pass, m, false)
  else if m.unloading then .ok (m.abs.failVerdict, m, false)
  else
    match m.ledger.scan (fun r => decide (r.key = key)) m.ledger.all with
    | .error e => .error e
    | .ok (some _) => .ok (.eagain, m, false)
    | .ok none =>
      if m.nreq ≥ PFSN_REQ_MAX then .ok (m.abs.failVerdict, m, false)
      else
        match m.reqGc now with
        | .error e => .error e
        | .ok m =>
          if !memory then .ok (m.abs.failVerdict, m, false)
          else
            let r := malloc.pick info.path.length m.ledger.heap
            .ok (.eagain,
              { m with
                ledger := m.ledger.add r
                  { id := m.nextId, key, nonblock, delivered := false
                    pid := info.pid, uid := info.uid, born := now }
                nextId := m.nextId + 1
                nreq := m.nreq + 1 }, true)

/-- `pfsn_resolve`. -/
def resolve (m : Requests) (id : Nat) (v : KVerdict) (memory : Bool) : Except Fault Requests :=
  match m.ledger.scan (fun r => decide (r.id = id)) m.ledger.all with
  | .error e => .error e
  | .ok none => .ok m
  | .ok (some (p, r)) =>
    match m.ledger.remove p with
    | .error e => .error e
    | .ok l =>
      .ok { m with ledger := l, cache := m.cache.cacheInsert memory r.key v, nreq := m.nreq - 1 }

/-- Does `pfsn_read` sleep? -/
def waits (m : Requests) : Bool :=
  if m.unloading || !m.upcallOn then false
  else
    match m.ledger.scan (fun r => !r.delivered) m.ledger.all with
    | .ok none => true
    | _ => false

/-- `pfsn_read`, when it does not sleep: end of file, or an event that is now to be copied out. -/
def take (m : Requests) : Except Fault (Requests × Option Req) :=
  if m.unloading || !m.upcallOn then .ok (m, none)
  else
    match m.ledger.scan (fun r => !r.delivered) m.ledger.all with
    | .error e => .error e
    | .ok none => .ok (m, none)
    | .ok (some (p, r)) =>
      match m.ledger.write p { r with delivered := true } with
      | .error e => .error e
      | .ok l => .ok ({ m with ledger := l }, some r)

/-- The rest of `pfsn_read`, when `uiomove` has failed. -/
def redeliver (m : Requests) (id : Nat) : Except Fault (Requests × Bool) :=
  match m.ledger.scan (fun r => decide (r.id = id)) m.ledger.all with
  | .error e => .error e
  | .ok none => .ok (m, false)
  | .ok (some (p, r)) =>
    match m.ledger.write p { r with delivered := false } with
    | .error e => .error e
    | .ok l => .ok ({ m with ledger := l }, true)

/-- `PFSNITCH_UPCALL_SET`. -/
def upcallSet (m : Requests) (on : Bool) : Requests × Bool := ({ m with upcallOn := on }, !on)

/-- `pfsn_dev_close`. -/
def devClose (m : Requests) : Requests × Bool :=
  if m.upcallOn then ({ m with upcallOn := false }, true) else (m, false)

/-- `pfsn_destroy`, as far as it holds `pfsn_pmtx`. -/
def destroy (m : Requests) : Except Fault (Requests × Bool) :=
  match m.ledger.drain with
  | .error e => .error e
  | .ok l => .ok ({ m with ledger := l, unloading := true, nreq := 0 }, true)

end Requests

/-! ## the device -/

/-- How far `pfsn_destroy` has come: it has released the readers, it waits in `destroy_dev`
for the threads inside, and the mutex is gone. -/
inductive Teardown where
  | loaded
  | released
  | waiting
  | gone
deriving DecidableEq, Repr

/-- The module's memory, if nothing has gone wrong with it. -/
structure Cdev where
  mem : Except Fault Requests
  phase : Teardown
  now : Nat

/-- What happens to the device, reading apart. -/
inductive CdevAct where
  /-- A miss that the hook asks about. -/
  | upcall (proto : UInt8) (addr : IpAddr) (fport : UInt16) (info : PfsnInfo) (nonblock memory : Bool)
  | resolve (id : Nat) (v : KVerdict) (memory : Bool)
  | upcallSet (on : Bool)
  | close
  /-- A push or a flush of verdicts, which have a lock of their own. -/
  | verdicts (cache : VCache)
  | setFailmode (m : FailMode)
  | wait (secs : Nat)
  | release
  | destroyDev
  | destroyMtx

namespace Cdev

/-- A module that has just been loaded. -/
def fresh (m : FailMode) (now : Nat) : Cdev := ⟨.ok { failmode := m }, .loaded, now⟩

/-- Under `pfsn_pmtx`. -/
def locked {β : Type} (d : Cdev) (f : Requests → Except Fault (Requests × β)) (none : β) : Cdev × β :=
  if d.phase = .gone then ({ d with mem := .error .useAfterFree }, none)
  else
    match d.mem with
    | .error _ => (d, none)
    | .ok m =>
      match f m with
      | .error e => ({ d with mem := .error e }, none)
      | .ok (m, b) => ({ d with mem := .ok m }, b)

/-- The policy is unregistered before `pfsn_destroy` runs, and there is no device after it. -/
def act (malloc : Malloc Nat Req) (d : Cdev) : CdevAct → Option (Cdev × Bool)
  | .upcall proto addr fport info nonblock memory =>
    if d.phase = .loaded then
      some (d.locked (fun m =>
        (m.upcall malloc proto addr fport info nonblock memory d.now).map (·.2)) false)
    else none
  | .resolve id v memory =>
    if d.phase = .gone then none
    else some (d.locked (fun m => (m.resolve id v memory).map fun m => (m, false)) false)
  | .upcallSet on =>
    if d.phase = .gone then none else some (d.locked (fun m => .ok (m.upcallSet on)) false)
  | .close => if d.phase = .gone then none else some (d.locked (fun m => .ok m.devClose) false)
  | .verdicts cache =>
    if d.phase = .gone then none
    else some ({ d with mem := d.mem.map fun m => { m with cache } }, false)
  | .setFailmode failmode =>
    if d.phase = .gone then none
    else some ({ d with mem := d.mem.map fun m => { m with failmode } }, false)
  | .wait secs => if d.phase = .gone then none else some ({ d with now := d.now + secs }, false)
  | .release =>
    if d.phase = .loaded then
      let (d, woken) := d.locked Requests.destroy false
      some ({ d with phase := .released }, woken)
    else none
  | .destroyDev => if d.phase = .released then some ({ d with phase := .waiting }, false) else none
  | .destroyMtx => if d.phase = .waiting then some ({ d with phase := .gone }, false) else none

/-- The device as threads in `pfsn_read` find it: they take an event to copy out, or the end of
the file. -/
def monitor (malloc : Malloc Nat Req) : Monitor Cdev CdevAct (Option Req) where
  waits d := match d.mem with
    | .ok m => m.waits
    | .error _ => false
  take d := d.locked Requests.take none
  finish r d := match r with
    | some r => d.locked (fun m => m.redeliver r.id) false
    | none => (d, false)
  act a d := d.act malloc a
  alone a := match a with
    | .destroyMtx => true
    | _ => false
  door d := decide (d.phase = .loaded ∨ d.phase = .released)
  gone d := decide (d.phase = .gone)

end Cdev

end Pfsnitch
