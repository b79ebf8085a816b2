import Pfsnitch.Lib.Run

/-!
# Pfsnitch.Service

The service around the daemon: `rc.d/pfsnitch`, `pfsnitch-watchdog`, the supervisor
`daemon(8)` with its `-r`, and the processes of the program, which are daemons or
commands and all of one name.

A script takes one step for each `pgrep`, `pfctl` or process that it starts.  Signals
take no step of their own: a process that gets one ends by a step of its own, as one
that crashes does, or one that cannot bind.  `sleep` takes no step either.
-/

namespace Pfsnitch.Service

open Lib

/-! ## the machine -/

/-- What a process of the program does: a command, or a daemon, which holds the divert
socket once it has bound it. -/
inductive Role
  | command
  | daemon (holds : Bool)
deriving DecidableEq

structure Proc where
  pid : Nat
  role : Role
deriving DecidableEq

/-- What the `pfsnitch` anchor holds: nothing, `anchor.conf` or `failopen.conf`. -/
inductive Ruleset
  | empty
  | divert
  | failopen
deriving DecidableEq

/-- The settings of `rc.conf` that the scripts branch on. -/
structure Config where
  failClosed : Bool
  watchdog : Bool

/-- `pfsnitch_poststart`, `pfsnitch_reload` and `pfsnitch_load_anchor`. -/
inductive Caller
  | start
  | reload
  | anchor
deriving DecidableEq

/-- The variables of the watchdog: `MISSES`, `STRANDED` and `KRESET`. -/
structure Watch where
  misses : Nat := 0
  stranded : Nat := 0
  reset : Bool := false
deriving DecidableEq

/-- Where a script is: the step that it takes next. -/
inductive Pc
  -- `start`: rc.subr and `pfsnitch_prestart`, then the wait of `pfsnitch_poststart`
  | check
  | prestart
  | squatters
  | flush
  | daemon
  | wait (n : Nat)
  -- what the three callers share
  | pgrep (c : Caller)
  | load (c : Caller)
  | loadUdp (c : Caller)
  | watchdog
  | failsafe
  | failsafeFlush
  -- `pfsnitch_stop` and `pfsnitch_poststop`
  | stopFlush
  | stopWatchdog
  | stopSupervisor
  | stopWait (n : Nat)
  | poststopFlush
  | poststopReset
  | poststopWait (pid : Nat)
  -- `pfsnitch-watchdog`
  | watch (w : Watch)
  | watchRules (w : Watch)
  | watchLoad (w : Watch)
  | watchReset (w : Watch)
  | watchWait (w : Watch) (pid : Nat)
  | watchGone (w : Watch)
  | watchFailopen (w : Watch)
  | watchFlush (w : Watch)
  | ended
deriving DecidableEq

/-- The machine: the processes of the program and the next pid; the supervisor, with the
child that it has started; whether another program holds the port; the anchor, and whether
`udpdivert.conf` is in its sub-anchor; and the scripts. -/
structure Machine where
  procs : List Proc
  next : Nat
  supervisor : Option (Option Nat)
  squatter : Bool
  rules : Ruleset
  udp : Bool
  scripts : List Pc
deriving DecidableEq

/-- What a `pfctl` has loaded: `anchor.conf` or `udpdivert.conf`. -/
inductive Load
  | anchor
  | udp
deriving DecidableEq

namespace Machine

/-- `pgrep -x pfsnitch`. -/
def running (m : Machine) : Bool := !m.procs.isEmpty

/-- Is there a process of this pid? -/
def alive (m : Machine) (pid : Nat) : Bool := m.procs.any (·.pid == pid)

/-- A daemon holds the divert socket. -/
def held (m : Machine) : Bool := m.procs.any (·.role == .daemon true)

/-- Somebody holds the divert port. -/
def taken (m : Machine) : Bool := m.held || m.squatter

/-- A process of the program starts. -/
def launch (m : Machine) (role : Role) : Machine :=
  { m with procs := m.procs ++ [⟨m.next, role⟩], next := m.next + 1 }

/-- A process ends. -/
def exit (m : Machine) (pid : Nat) : Machine :=
  { m with procs := m.procs.filter (·.pid != pid) }

/-- `pfctl -a pfsnitch -F rules`, if it succeeds. -/
def flush (m : Machine) (ok : Bool) : Machine := if ok then { m with rules := .empty } else m

end Machine

/-- What `pfsnitch_stop` makes of the watchdog: it is killed. -/
def Pc.killWatch : Pc → Pc
  | .watch _ | .watchRules _ | .watchLoad _ | .watchReset _ | .watchWait _ _ | .watchGone _
  | .watchFailopen _ | .watchFlush _ => .ended
  | pc => pc

/-! ## the scripts -/

/-- The next step of a script.  `ok` says whether what it runs succeeds; a script waits
(`none`) for a command of the program to end. -/
def Pc.step (cfg : Config) (m : Machine) (ok : Bool) : Pc → Option (Machine × Pc × List Load)
  -- rc.subr looks for the supervisor by its pid file, which may be stale
  | .check => some (m, if ok && m.supervisor.isSome then .ended else .prestart, [])
  | .prestart => some (m, if ok then .squatters else .ended, [])
  | .squatters => some (m, if m.taken then .ended else .flush, [])
  | .flush => some (m.flush ok, .daemon, [])
  | .daemon =>
    if ok && m.supervisor.isNone then some ({ m with supervisor := some none }, .wait 0, [])
    else some (m, .ended, [])
  | .wait n => some (m, if m.running || 50 ≤ n + 1 then .pgrep .start else .wait (n + 1), [])
  | .pgrep c =>
    if m.running then some (m, .load c, [])
    else
      match c with
      | .start | .anchor => some (m, .failsafe, [])
      | .reload => some (m, .ended, [])
  | .load c =>
    if ok then some ({ m with rules := .divert }, .loadUdp c, [.anchor])
    else
      match c with
      | .start => some (m, .failsafe, [])
      | .reload | .anchor => some (m, .ended, [])
  | .loadUdp c =>
    let next := if c = .start then .watchdog else .ended
    if ok then some ({ m with udp := true }, next, [.udp]) else some (m, next, [])
  | .watchdog =>
    if cfg.watchdog then some ({ m with scripts := m.scripts ++ [.watch {}] }, .ended, [])
    else some (m, .ended, [])
  | .failsafe =>
    if cfg.failClosed then some (m.flush ok, .ended, [])
    else if ok then some ({ m with rules := .failopen }, .ended, [])
    else some (m, .failsafeFlush, [])
  | .failsafeFlush => some (m.flush ok, .ended, [])
  | .stopFlush => some (m.flush ok, .stopWatchdog, [])
  | .stopWatchdog => some ({ m with scripts := m.scripts.map killWatch }, .stopSupervisor, [])
  | .stopSupervisor => some (if ok then { m with supervisor := none } else m, .stopWait 0, [])
  | .stopWait n =>
    some (m, if m.running && n + 1 < 25 then .stopWait (n + 1) else .poststopFlush, [])
  | .poststopFlush => some (m.flush ok, .poststopReset, [])
  | .poststopReset => some (m.launch .command, .poststopWait m.next, [])
  | .poststopWait pid => if m.alive pid then none else some (m, .ended, [])
  | .watch w =>
    if m.running then some (m, .watchRules { w with misses := 0, reset := false }, [])
    else
      let w := { w with misses := w.misses + 1, stranded := 0 }
      some (m, if w.misses < 3 then .watch w else if w.reset then .watchGone w else .watchReset w, [])
  | .watchRules w =>
    if ok && m.rules == .divert then some (m, .watch { w with stranded := 0 }, [])
    else
      let w := { w with stranded := w.stranded + 1 }
      some (m, if 3 ≤ w.stranded then .watchLoad w else .watch w, [])
  | .watchLoad w =>
    let w := { w with stranded := 0 }
    if ok then some ({ m with rules := .divert }, .watch w, [.anchor]) else some (m, .watch w, [])
  | .watchReset w => some (m.launch .command, .watchWait w m.next, [])
  | .watchWait w pid =>
    if m.alive pid then none else some (m, .watchGone { w with reset := true }, [])
  | .watchGone w =>
    let quiet := Pc.watch { w with misses := 0 }
    if cfg.failClosed then some (m, if ok && m.rules != .empty then .watchFlush w else quiet, [])
    else some (m, if ok && m.rules == .divert then .watchFailopen w else quiet, [])
  | .watchFailopen w =>
    if ok then some ({ m with rules := .failopen }, .watch { w with misses := 0 }, [])
    else some (m, .watchFlush w, [])
  | .watchFlush w => some (m.flush ok, .watch { w with misses := 0 }, [])
  | .ended => none

/-! ## the system -/

/-- `service pfsnitch ..`. -/
inductive Command
  | start
  | stop
  | reload
  | anchor
deriving DecidableEq

def Command.first : Command → Pc
  | .start => .check
  | .stop => .stopFlush
  | .reload => .pgrep .reload
  | .anchor => .pgrep .anchor

/-- What can happen: a service command is given, and a script takes its next step; the
program is run for a command, or as a daemon by hand, or by the supervisor; a daemon binds
the socket; a process ends, or the supervisor does; another program takes the port or
leaves it; a daemon that has the socket loads the sub-anchor or flushes it
(`set_udp_divert`). -/
inductive Event
  | call (c : Command)
  | script (i : Nat) (ok : Bool)
  | command
  | byHand
  | spawn
  | bind (pid : Nat)
  | exit (pid : Nat)
  | supervisorExit
  | squat (b : Bool)
  | setUdpDivert (pid : Nat) (divert ok : Bool)
deriving DecidableEq

def step (cfg : Config) (m : Machine) : Event → Option (Machine × List Load)
  | .call c => some ({ m with scripts := m.scripts ++ [c.first] }, [])
  | .script i ok => do
    let pc ← m.scripts[i]?
    let (m', pc', loads) ← pc.step cfg m ok
    return ({ m' with scripts := m'.scripts.set i pc' }, loads)
  | .command => some (m.launch .command, [])
  | .byHand => some (m.launch (.daemon false), [])
  | .spawn =>
    match m.supervisor with
    | some child =>
      if child.any m.alive then none
      else some ({ m.launch (.daemon false) with supervisor := some (some m.next) }, [])
    | none => none
  | .bind pid =>
    if ⟨pid, .daemon false⟩ ∈ m.procs ∧ m.taken = false then
      some ({ m with procs := m.procs.map fun p =>
        if p.pid = pid then ⟨pid, .daemon true⟩ else p }, [])
    else none
  | .exit pid => if m.alive pid then some (m.exit pid, []) else none
  | .supervisorExit => some ({ m with supervisor := none }, [])
  | .squat b => if b ∧ m.taken = true then none else some ({ m with squatter := b }, [])
  | .setUdpDivert pid divert ok =>
    if ⟨pid, .daemon true⟩ ∉ m.procs then none
    else if ok then some ({ m with udp := divert }, if divert then [.udp] else [])
    else some (m, [])

end Pfsnitch.Service
