import Pfsnitch.Kernel.Module
import Pfsnitch.Lib.Filter
import Pfsnitch.Service

/-!
# Pfsnitch.Pf.Rules

The pf rulesets: `pf.conf.sample`, and what is loaded into its `pfsnitch` anchor and the
`udpdivert` anchor inside it.

A rule is what `pf.conf(5)` makes of its line: a criterion that is not given is met by every
packet, a `pass` rule keeps state unless it is `no state`, and of TCP a rule that keeps state
sees only what starts a connection (`flags S/SA`).  The address of a `divert-to` is thrown
away.
-/

namespace Pfsnitch.Pf

open Lib

/-- The interface of a packet: `lo0`, `$ext_if`, or another one. -/
inductive Iface where
  | lo0
  | ext
  | other
deriving DecidableEq

/-- A packet that pf sees; the ports are those of TCP and UDP, and 0 otherwise. -/
structure Packet where
  out : Bool
  iface : Iface
  proto : UInt8
  src : IpAddr
  dst : IpAddr
  sport : UInt16
  dport : UInt16
  syn : Bool
  ack : Bool
  icmpType : UInt8

/-- Both directions of a connection: the end on this machine, and the other one. -/
structure Connection where
  proto : UInt8
  laddr : IpAddr
  lport : UInt16
  faddr : IpAddr
  fport : UInt16
deriving DecidableEq

def Packet.connection (p : Packet) : Connection :=
  if p.out then ⟨p.proto, p.src, p.sport, p.dst, p.dport⟩ else ⟨p.proto, p.dst, p.dport, p.src, p.sport⟩

/-- Does it start a TCP connection (`flags S/SA`)? -/
def Packet.starts (p : Packet) : Bool := p.syn && !p.ack

/-- What is done with a packet, and whether its connection gets a state. -/
structure Action where
  pass : Bool
  divert : Option UInt16
  keep : Bool
deriving DecidableEq

def Action.block : Action := ⟨false, none, false⟩

/-- `pass .. keep state`. -/
def Action.letOut : Action := ⟨true, none, true⟩

/-- `pass .. divert-to 127.0.0.1 port 8668`, with a state or without. -/
def Action.toDaemon (keep : Bool) : Action := ⟨true, some 8668, keep⟩

/-- The criteria of a rule. -/
structure Criteria where
  out : Bool
  onExt : Bool := false
  inet : Bool := false
  proto : Option UInt8 := none
  fromPort : Option UInt16 := none
  toPort : Option UInt16 := none
  icmpTypes : Option (List UInt8) := none

/-- `inet`. -/
def Packet.inet (p : Packet) : Bool :=
  match p.src with
  | .v4 _ => true
  | .v6 _ => false

def Criteria.met (c : Criteria) (p : Packet) : Bool :=
  p.out == c.out && (!c.onExt || p.iface == .ext) && (!c.inet || p.inet) &&
    c.proto.all (p.proto == ·) && c.fromPort.all (p.sport == ·) && c.toPort.all (p.dport == ·) &&
    c.icmpTypes.all fun types => types.contains p.icmpType

abbrev Item := Filter.Item Packet Action

/-- A line of a ruleset. -/
def line (action : Action) (c : Criteria) (quick : Bool := false) : Item :=
  .rule
    { covers := fun p => c.met p && (!action.keep || p.proto ≠ IPPROTO_TCP || p.starts)
      quick
      effect := action }

/-- `udpdivert.conf`. -/
def udpdivertConf : List Item :=
  [line (.toDaemon true) { out := true, proto := some IPPROTO_UDP } true]

/-- `anchor.conf`, with what is in the sub-anchor. -/
def anchorConf (udpdivert : List Item) : List Item :=
  [ line (.toDaemon false) { out := true, proto := some IPPROTO_UDP, toPort := some 53 } true,
    line (.toDaemon false) { out := false, proto := some IPPROTO_UDP, fromPort := some 53 } true,
    line (.toDaemon true) { out := true, proto := some IPPROTO_TCP } true,
    .anchor udpdivert,
    line .letOut { out := true } ]

/-- `failopen.conf`. -/
def failopenConf : List Item := [line .letOut { out := true }]

/-- `set skip on lo0`: pf does not look at such packets. -/
def Packet.skipped (p : Packet) : Bool := p.iface == .lo0

theorem Packet.skipped_iff {p : Packet} : p.skipped = true ↔ p.iface = .lo0 := beq_iff_eq

/-- The rules of `pf.conf.sample`, with what is in the anchor. -/
def pfConf (pfsnitch : List Item) : List Item :=
  [ line .block { out := false },
    line .block { out := true },
    line .letOut
      { out := true, onExt := true, proto := some IPPROTO_UDP, fromPort := some 68, toPort := some 67 }
      true,
    line .letOut { out := false, inet := true, proto := some 1, icmpTypes := some [8, 3, 11] },
    .anchor pfsnitch,
    line .letOut { out := false, onExt := true, proto := some IPPROTO_TCP, toPort := some 22 },
    line .letOut
      { out := false, onExt := true, proto := some IPPROTO_UDP, fromPort := some 67, toPort := some 68 } ]

/-- What the anchor holds, and the one inside it. -/
def anchorItems : Service.Ruleset → Bool → List Item
  | .empty, _ => []
  | .divert, udp => anchorConf (if udp then udpdivertConf else [])
  | .failopen, _ => failopenConf

/-- Without a rule that says more, a packet passes and its connection gets no state. -/
def Action.letBy : Action := ⟨true, none, false⟩

/-- What the rules say of a packet. -/
def ruled (rules : Service.Ruleset) (udp : Bool) (p : Packet) : Action :=
  (Filter.Item.verdict (pfConf (anchorItems rules udp)) p).getD .letBy

/-- What `pf.conf.sample` does with a packet that has no state. -/
def evaluate (rules : Service.Ruleset) (udp : Bool) (p : Packet) : Action :=
  if p.skipped then .letBy else ruled rules udp p

/-- What becomes of a packet. -/
inductive Fate where
  | dropped
  | diverted (port : UInt16)
  | passed
deriving DecidableEq

def Action.fate (a : Action) : Fate :=
  if !a.pass then .dropped
  else
    match a.divert with
    | some port => .diverted port
    | none => .passed

abbrev States := Filter.States Connection Action

/-- pf sees a packet.  `fits` says whether a state accepts its sequence numbers; what a rule
said when the state was made is done with all packets of the connection. -/
def test (rules : Service.Ruleset) (udp : Bool) (t : States) (p : Packet) (fits : Bool) :
    Fate × States :=
  if p.skipped then (.passed, t)
  else if (t.lookup p.connection).isSome ∧ !fits then (.dropped, t)
  else
    let (a, t) := t.step Packet.connection Action.keep (evaluate rules udp) p
    (a.fate, t)

end Pfsnitch.Pf
