import Pfsnitch.Kernel.Abi
import Pfsnitch.Lib.Custody

/-!
# Pfsnitch.Kernel.Labels

The life cycle of a socket's label: the records of creators, the slot of each label that
points to one, and the calls that read them.

The MAC framework and the socket layer are the callers.  What they promise is `Mac`: a
slot that was handed out is never handed out again, a socket is created once and stays
while a call is working on it, a policy is unregistered when no hook is running, and
`destroy_dev` waits for the ioctls.
-/

namespace Pfsnitch

open Lib

/-! ## what the framework keeps -/

/-- The policy: not there, registered with a slot, or on its way out. -/
inductive Phase where
  | absent
  | registered (slot : Nat)
  | leaving (slot : Nat)
deriving DecidableEq

def Phase.isRegistered : Phase → Bool
  | .registered _ => true
  | .absent | .leaving _ => false

/-- `pfsn_slot`. -/
def Phase.slot : Phase → Option Nat
  | .absent => none
  | .registered n => some n
  | .leaving n => some n

/-- A socket: does it have a label, and has `mac_socket_create` been called for it?  The
socket of an accepted connection never sees that call. -/
structure SockInfo where
  labelled : Bool
  created : Bool
deriving DecidableEq

/-- A call that holds a socket: `connect(2)` in the hook, or a query that has found the
socket's pcb. -/
structure InFlight where
  query : Bool
  sock : Nat
deriving DecidableEq

structure Mac where
  phase : Phase := .absent
  /-- The slots that were handed out, to this policy or another one. -/
  used : List Nat := []
  socks : Nat → Option SockInfo := fun _ => none
  calls : List InFlight := []

/-- The process in `socket(2)`: `curproc`, `cred`, and what `vn_fullpath` gives. -/
structure CurProc where
  pid : Int32
  uid : UInt32
  comm : List UInt8
  fullpath : Option (List UInt8)

/-- What happens. -/
inductive LabelEvent where
  | load (slot : Nat)
  | unregister
  /-- `destroy_dev` has returned, and `pfsn_destroy` frees what is left. -/
  | drain
  | soalloc (s : Nat) (labelled : Bool)
  | socreate (s n : Nat) (p : CurProc)
  | sodealloc (s : Nat)
  | connect (s : Nat)
  | query (s : Nat)
  /-- The `i`-th call reads the label and lets the socket go. -/
  | finish (i : Nat)

namespace Mac

/-- Can it happen now? -/
def may (m : Mac) : LabelEvent → Bool
  | .load slot => m.phase = .absent ∧ slot ∉ m.used
  | .unregister => m.phase.isRegistered ∧ m.calls.all fun c => c.query
  | .drain => m.phase ≠ .absent ∧ !m.phase.isRegistered ∧ m.calls = []
  | .soalloc s labelled => (m.socks s).isNone ∧ (m.phase.isRegistered → labelled)
  | .socreate s _ _ => (m.socks s).any fun so => !so.created
  | .sodealloc s => (m.socks s).isSome ∧ m.calls.all fun c => c.sock ≠ s
  | .connect s => (m.socks s).isSome ∧ m.phase.isRegistered
  | .query s => (m.socks s).isSome ∧ m.phase ≠ .absent
  | .finish i => i < m.calls.length

/-- What the framework keeps afterwards. -/
def next (m : Mac) : LabelEvent → Mac
  | .load slot => { m with phase := .registered slot, used := slot :: m.used }
  | .unregister =>
    match m.phase with
    | .registered slot => { m with phase := .leaving slot }
    | _ => m
  | .drain => { m with phase := .absent }
  | .soalloc s labelled => { m with socks := Function.update m.socks s (some ⟨labelled, false⟩) }
  | .socreate s _ _ =>
    { m with socks := Function.update m.socks s ((m.socks s).map fun so => { so with created := true }) }
  | .sodealloc s => { m with socks := Function.update m.socks s none }
  | .connect s => { m with calls := m.calls ++ [⟨false, s⟩] }
  | .query s => { m with calls := m.calls ++ [⟨true, s⟩] }
  | .finish i => { m with calls := m.calls.eraseIdx i }

end Mac

/-! ## the module's records -/

/-- `l_perpolicy`: what each slot of a label points to. -/
abbrev SockLabel := Nat → Option Nat

/-- The records with `pfsn_all`, and the labels of the sockets that have one. -/
structure Creators where
  ledger : Ledger Nat Creator := .empty
  labels : Nat → Option SockLabel := fun _ => none

/-- What is seen of an event: who a call takes for the creator of its socket. -/
inductive LabelSeen where
  | quiet
  | creator (s : Nat) (c : Option Creator)
deriving DecidableEq

/-- The record `pfsn_socket_create` fills in. -/
def CurProc.creator (p : CurProc) : Creator where
  pid := p.pid
  uid := p.uid
  comm := RawMod.strlcpy (List.replicate 20 0) p.comm
  path :=
    match p.fullpath with
    | some path => cstring path ++ [0]
    | none => [0]

namespace Creators

/-- `SLOT_SET`. -/
def slotSet (c : Creators) (s slot : Nat) (p : Option Nat) : Creators :=
  { c with labels := Function.update c.labels s ((c.labels s).map fun label =>
      Function.update label slot p) }

/-- `SLOT`, of a socket that may have no label. -/
def slot (c : Creators) (s slot : Nat) : Option Nat := (c.labels s).bind fun label => label slot

/-- `pfsn_socket_create`. -/
def socketCreate (malloc : Malloc Nat Creator) (c : Creators) (slot s n : Nat) (p : CurProc) :
    Creators :=
  if (c.labels s).isNone then c
  else
    let info := malloc.pick n c.ledger.heap
    { c with ledger := c.ledger.add info p.creator }.slotSet s slot (some info)

/-- `pfsn_socket_destroy_label`. -/
def destroyLabel (c : Creators) (slot s : Nat) : Except Fault Creators :=
  match c.slot s slot with
  | none => .ok c
  | some info =>
    match c.ledger.remove info with
    | .ok ledger => .ok ({ c with ledger }.slotSet s slot none)
    | .error e => .error e

/-- What the hook and `pfsn_lookup` read. -/
def identity (c : Creators) (slot s : Nat) : Except Fault (Option Creator) :=
  match c.slot s slot with
  | none => .ok none
  | some info =>
    match c.ledger.read info with
    | .ok v => .ok (some v)
    | .error e => .error e

/-- One event.  The framework clears a new label before it shows it to the policies, and
calls a policy that is registered only. -/
def step (malloc : Malloc Nat Creator) (m : Mac) (c : Creators) :
    LabelEvent → Except Fault (Creators × LabelSeen)
  | .load _ => .ok ({ c with ledger := { c.ledger with all := [] } }, .quiet)
  | .drain =>
    match c.ledger.drain with
    | .ok ledger => .ok ({ c with ledger }, .quiet)
    | .error e => .error e
  | .soalloc s labelled =>
    let c := { c with labels := Function.update c.labels s (if labelled then some fun _ => none else none) }
    match m.phase with
    | .registered slot => .ok (c.slotSet s slot none, .quiet)
    | _ => .ok (c, .quiet)
  | .socreate s n p =>
    match m.phase with
    | .registered slot => .ok (c.socketCreate malloc slot s n p, .quiet)
    | _ => .ok (c, .quiet)
  | .sodealloc s =>
    match m.phase with
    | .registered slot =>
      match c.destroyLabel slot s with
      | .ok c => .ok ({ c with labels := Function.update c.labels s none }, .quiet)
      | .error e => .error e
    | _ => .ok ({ c with labels := Function.update c.labels s none }, .quiet)
  | .finish i =>
    match m.phase.slot, m.calls[i]? with
    | some slot, some call =>
      match c.identity slot call.sock with
      | .ok info => .ok (c, .creator call.sock info)
      | .error e => .error e
    | _, _ => .ok (c, .quiet)
  | .unregister | .connect _ | .query _ => .ok (c, .quiet)

end Creators

/-- The framework and the module. -/
structure LabelKernel where
  mac : Mac := {}
  creators : Creators := {}

namespace LabelKernel

/-- One event; what cannot happen now does not. -/
def step (malloc : Malloc Nat Creator) (k : LabelKernel) (ev : LabelEvent) :
    Except Fault (LabelKernel × LabelSeen) :=
  if k.mac.may ev then
    match k.creators.step malloc k.mac ev with
    | .ok (creators, seen) => .ok (⟨k.mac.next ev, creators⟩, seen)
    | .error e => .error e
  else .ok (k, .quiet)

/-- Events one after the other. -/
def run (malloc : Malloc Nat Creator) (k : LabelKernel) :
    List LabelEvent → Except Fault (LabelKernel × List LabelSeen)
  | [] => .ok (k, [])
  | ev :: evs =>
    match k.step malloc ev with
    | .ok (k, seen) =>
      match run malloc k evs with
      | .ok (k, rest) => .ok (k, seen :: rest)
      | .error e => .error e
    | .error e => .error e

end LabelKernel

/-! ## queries -/

def PFSNITCH_MISS : UInt8 := 0
def PFSNITCH_MATCH_EXACT : UInt8 := 1
def PFSNITCH_MATCH_WILDCARD : UInt8 := 2

/-- `in_pcblookup` and `in6_pcblookup`, with or without `INPLOOKUP_WILDCARD`: the pcb they find,
and its socket.  The ports are in network order. -/
abbrev Pcblookup :=
  (proto : UInt8) → (faddr : IpAddr) → (fport : UInt16) → (laddr : IpAddr) → (lport : UInt16) →
    (wildcard : Bool) → Option (Option Nat)

/-- `buf[0] = '\0'`. -/
def nulFirst {n : Nat} (buf : { bs : List UInt8 // bs.length = n }) :
    { bs : List UInt8 // bs.length = n } :=
  ⟨buf.1.set 0 0, List.length_set.trans buf.2⟩

/-- `strlcpy` into a field. -/
def strlcpyField {n : Nat} (buf : { bs : List UInt8 // bs.length = n }) (src : List UInt8) :
    { bs : List UInt8 // bs.length = n } :=
  ⟨RawMod.strlcpy buf.1 src, (RawMod.length_strlcpy _ _).trans buf.2⟩

/-- `pfsn_lookup`.  `identity` is what a socket's label says. -/
def pfsnLookup (pcblookup : Pcblookup) (identity : Nat → Option Creator) (q : PfsnitchAttr) :
    PfsnitchAttr :=
  let find (wildcard : Bool) : Option (Option Nat) :=
    pcblookup q.proto (addrOf q.af q.faddr) q.fport (addrOf q.af q.laddr) q.lport wildcard
  let q := { q with
    found := PFSNITCH_MISS, pid := 0, uid := 0, comm := nulFirst q.comm, path := nulFirst q.path }
  let answer (found : UInt8) (so : Option Nat) : PfsnitchAttr :=
    match so.bind identity with
    | some info =>
      { q with
        found, pid := info.pid, uid := info.uid
        comm := strlcpyField q.comm info.comm
        path := strlcpyField q.path info.path }
    | none => q
  match find false with
  | some so => answer PFSNITCH_MATCH_EXACT so
  | none =>
    if q.proto = IPPROTO_UDP then
      match find true with
      | some so => answer PFSNITCH_MATCH_WILDCARD so
      | none => q
    else q

/-- What the label of a socket says now. -/
def LabelKernel.identity (k : LabelKernel) (s : Nat) : Option Creator :=
  match k.mac.phase.slot with
  | none => none
  | some slot =>
    match k.creators.identity slot s with
    | .ok info => info
    | .error _ => none

end Pfsnitch
