import Pfsnitch.Daemon.Packet

/-!
# Pfsnitch.Daemon.Drain

The two drains at the top of the loop: answers that came back from prompts, and
misses the kernel asks about.
-/

namespace Pfsnitch

open Lib

variable [Casing]

omit [Casing] in
/-- The verdict a boolean resolve carries. -/
def toKVerdict (allow : Bool) : KVerdict := if allow then .allow else .deny

omit [Casing] in
/-- Resolve ids one after the other through the daemon's handle; the calls are
numbered from `n`. -/
def resolveAll (inp : Input) (v : KVerdict) : Nat → List Nat → Os → Option Handle →
    Os × Option Handle
  | _, [], os, kern => (os, kern)
  | n, id :: ids, os, kern =>
    let (os, kern) := kernIoctl os kern (inp.ioctl n) fun k => k.resolve id v (inp.memory n)
    resolveAll inp v (n + 1) ids os kern

omit [Casing] in
theorem resolveAll_cons (inp : Input) (v : KVerdict) (n id : Nat) (ids : List Nat) (os : Os)
    (kern : Option Handle) : resolveAll inp v n (id :: ids) os kern =
      resolveAll inp v (n + 1) ids
        (kernIoctl os kern (inp.ioctl n) fun k => k.resolve id v (inp.memory n)).1
        (kernIoctl os kern (inp.ioctl n) fun k => k.resolve id v (inp.memory n)).2 := rfl

/-! ## answers -/

/-- The key an answer is filed under. -/
def Pending.key (p : Pending) : AskKey := (p.exe.getD [], askKey p.host p.dst)

/-- The waiters of a question. -/
def Daemon.waiters (d : Daemon) (key : AskKey) : List Waiter :=
  (d.pendingUpcalls.lookup key).getD []

/-- One answer: the question is no longer asked, the misses that waited for it
are resolved, an approval re-pins the binary, and the decision is recorded. -/
def drainAnswer (inp : Input) (os : Os) (d : Daemon) (ans : Answer) (p : Pending) : Os × Daemon :=
  let ids := (d.waiters p.key).map (·.ev.id)
  let (os, kern) := resolveAll inp (toKVerdict ans.approves) 0 ids os d.kern
  let (pol, ls) := d.pol.answered ans p.exe p.dst p.host p.dport (p.exe.bind os.env.hash)
  (os.appendPolicy inp ls,
    { d with
      kern, pol
      asking := d.asking.erase p.key
      pendingUpcalls := d.pendingUpcalls.erase p.key })

/-! ## kernel upcalls -/

omit [Casing] in
/-- What comes after the last `/` of a path. -/
def lastComponent (path : Str) : Str :=
  match splitLast '/' path with
  | some (_, name) => name
  | none => path

omit [Casing] in
/-- The prompt the upcall path raises. -/
def upcallPrompt (ev : KernEvent) (changed : Bool) (hostname : Str) : Prompt where
  changed := changed
  exe := some ev.path
  pid := ev.pid
  cmd := lastComponent ev.path
  dst := ev.dst
  dport := ev.dport
  host := hostname
  scope := "kernel".toList

/-- Add a waiter to a question. -/
def addWaiter (d : Daemon) (key : AskKey) (w : Waiter) : Daemon :=
  { d with pendingUpcalls := d.pendingUpcalls.insert key (d.waiters key ++ [w]) }

/-- One miss: answered at once when the verdict is settled, else the question is
raised and the miss waits for it. -/
def drainUpcall (inp : Input) (os : Os) (d : Daemon) (ev : KernEvent) :
    Os × Daemon × List Output :=
  let answer (v : KVerdict) : Os × Daemon × List Output :=
    let (os, kern) := resolveAll inp v 0 [ev.id] os d.kern
    (os, { d with kern }, [])
  if ev.path = [] then answer .allow
  else
    let host := d.names.nameFor ev.dst
    match judge d.pol os.env (some ev.path) ev.dst host ev.dport with
    | .allow => answer .allow
    | .deny => answer .deny
    | .ask =>
      let hostname := host.getD []
      let key := (ev.path, askKey (nonEmpty hostname) ev.dst)
      let (d, outs) := raise d key (upcallPrompt ev (idChanged d.pol os.env ev.path) hostname)
      (os, addWaiter d key ⟨ev, host⟩, outs)

end Pfsnitch
