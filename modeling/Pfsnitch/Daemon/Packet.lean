import Pfsnitch.Daemon.World

/-!
# Pfsnitch.Daemon.Packet

What the loop does with a diverted packet: the DNS and inbound shortcuts, the
settled verdicts in `decided`, and the slow path that attributes the flow,
names the destination, checks the binary and asks the policy.
-/

namespace Pfsnitch

open Lib

variable [Casing]

/-! ## the slow path -/

omit [Casing] in
/-- Is the binary behind a path not the one its rules were approved for?  A
binary that cannot be hashed is not evidence of a change. -/
def idChanged (pol : Policy) (env : Env) (exe : Str) : Bool :=
  match pol.expectedId exe, env.hash exe with
  | some expected, some actual => actual.text ≠ expected
  | _, _ => false

/-- The verdict on a binary (if known) reaching for a destination: ask when the
binary has changed, else what the policy decides. -/
def judge (pol : Policy) (env : Env) (exe : Option Str) (dst : IpAddr) (host : Option Str)
    (dport : UInt16) : Verdict :=
  if exe.any (idChanged pol env) then .ask else pol.decide exe dst host dport

/-- The owner's path of a flow. -/
def flowExe (env : Env) (flow : FlowKey) : Option Str := (env.owner flow).map (·.path)

/-- The destination address and port of a flow. -/
def flowDst (flow : FlowKey) : IpAddr × UInt16 := flow.2.2.2

/-- The verdict of the slow path on a flow, at this moment. -/
def slowVerdict (pol : Policy) (env : Env) (names : DnsCache) (flow : FlowKey) : Verdict :=
  judge pol env (flowExe env flow) (flowDst flow).1 (names.nameFor (flowDst flow).1)
    (flowDst flow).2

omit [Casing] in
/-- `push_verdict`, up to the ioctl: a path that does not fit cannot be keyed on. -/
def pushVerdict (k : KMod) (proto : UInt8) (dst : IpAddr) (dport : UInt16) (path : Str)
    (v : KVerdict) (memory : Bool) : KMod :=
  k.verdictPush proto dst dport v (utf8Bytes path) memory

omit [Casing] in
/-- The cases `push_verdict` turns away before the ioctl. -/
def canPush (proto : UInt8) (path : Str) : Bool :=
  (proto = IPPROTO_TCP ∨ proto = IPPROTO_UDP) ∧ utf8Bytes path ≠ [] ∧ (utf8Bytes path).length < 1024

/-! ## one packet -/

/-- What handling a packet leaves behind; `used` is the verdict the packet was
judged by, if it was judged, and `next` is where the loop goes on. -/
structure Handled where
  os : Os
  daemon : Daemon
  outs : List Output
  used : Option Verdict
  next : Pc

/-- The end of the packet loop: reject a settled deny, let an allowed packet
through; visibility never drops. -/
def fate (mode : Mode) (pkt : Packet) (src : Sockaddr) (allow reject : Bool) : List Output :=
  (if mode.enforcing && reject then ((tcpRst pkt).map Output.reset).toList else []) ++
    if !mode.enforcing || allow then [.reinject pkt src] else []

/-- The two flags a verdict sets; an ask never settles anything. -/
def verdictFlags : Verdict → Bool × Bool
  | .allow => (true, false)
  | .deny => (false, true)
  | .ask => (true, false)

/-- Keep a settled verdict; a full map is cleared first. -/
def settle (decided : AList fun _ : FlowKey => Verdict) (flow : FlowKey) (v : Verdict) :
    AList fun _ : FlowKey => Verdict :=
  (if decided.entries.length > 16384 then ∅ else decided).insert flow v

/-- The prompt the packet path raises. -/
def packetPrompt (d : Daemon) (f : Flow) (att : Option Attribution) (changed : Bool) : Prompt where
  changed := changed
  exe := att.map (·.path)
  pid := (att.map (·.pid)).getD 0
  cmd := (att.map (·.command)).getD []
  dst := f.dst
  dport := f.dport
  host := (d.names.nameFor f.dst).getD []
  scope := (att.map (·.confidence)).getD "none".toList

/-- Raise a prompt unless the same question is already being asked. -/
def raise (d : Daemon) (key : AskKey) (p : Prompt) : Daemon × List Output :=
  if key ∈ d.asking then (d, [])
  else ({ d with asking := insert key d.asking, prompts := d.prompts ++ [p] }, [.prompt p])

/-- `if host.is_empty() { None } else { Some(host) }`. -/
def nonEmpty (host : Str) : Option Str := if host = [] then none else some host

/-- Push a settled verdict into the kernel's cache: only while enforcing, and
only for an attributed flow. -/
def pushSettled (inp : Input) (os : Os) (d : Daemon) (f : Flow) (exe : Option Str)
    (v : KVerdict) : Os × Daemon :=
  match exe with
  | some path =>
    if d.mode.enforcing ∧ canPush f.proto path = true then
      let (os, kern) := kernIoctl os d.kern (inp.ioctl 1) fun k =>
        pushVerdict k f.proto f.dst f.dport path v (inp.memory 0)
      (os, { d with kern })
    else (os, d)
  | none => (os, d)

/-- A flow without a settled verdict. -/
def slowPath (inp : Input) (os : Os) (d : Daemon) (pkt : Packet) (src : Sockaddr) (f : Flow) :
    Handled :=
  -- the kernel is asked first; only the handle's health is left of that question
  let kern := if f.proto = IPPROTO_TCP ∨ f.proto = IPPROTO_UDP then
    (d.kern.map fun h => (os.ioctl h (inp.ioctl 0) id).2) else d.kern
  let d := { d with kern }
  let att := os.env.owner f.key
  let exe := att.map (·.path)
  let host := d.names.nameFor f.dst
  let verdict := judge d.pol os.env exe f.dst host f.dport
  match verdict with
  | .allow =>
    let d := { d with decided := settle d.decided f.key .allow }
    let (os, d) := pushSettled inp os d f exe .allow
    ⟨os, d, fate d.mode pkt src true false, some verdict, .top⟩
  | .deny =>
    let d := { d with decided := settle d.decided f.key .deny }
    let (os, d) := pushSettled inp os d f exe .deny
    ⟨os, d, fate d.mode pkt src false true, some verdict, .top⟩
  | .ask =>
    if d.mode.enforcing then
      -- hold it: the SYN will be retried
      let key := (exe.getD [], askKey (nonEmpty (host.getD [])) f.dst)
      let (d, outs) := raise d key (packetPrompt d f att (exe.any (idChanged d.pol os.env)))
      ⟨os, d, outs ++ fate d.mode pkt src false false, some verdict, .top⟩
    else
      -- visibility learns instead of asking, and then moves its watermark past the write
      let (pol, ls) := d.pol.learned exe f.dst host f.dport
      let os := os.appendPolicy inp ls
      let d := { d with pol }
      ⟨os, d, fate d.mode pkt src true false, some verdict, .learning [.readMtime]⟩

/-- The names a DNS answer teaches. -/
def learnNames (names : DnsCache) (pkt : Packet) (now : Nat) : DnsCache :=
  match payloadOffset pkt with
  | some off => if off < pkt.length then names.observe (pkt.drop off) now else names
  | none => names

/-- The body of the packet loop. -/
def handlePacket (inp : Input) (os : Os) (d : Daemon) (pkt : Packet) (src : Sockaddr) : Handled :=
  match parse pkt with
  | none => ⟨os, d, fate d.mode pkt src true false, none, .top⟩
  | some f =>
    if f.proto = 17 ∧ f.sport = 53 then
      -- a DNS answer is evidence, not a connection attempt
      ⟨os, { d with names := learnNames d.names pkt os.now }, [.reinject pkt src], none, .top⟩
    else if src.addr ≠ 0 then ⟨os, d, [.reinject pkt src], none, .top⟩
    else if f.synOnly = true ∨ f.proto = 17 then
      match d.decided.lookup f.key with
      | some v => ⟨os, d, fate d.mode pkt src (verdictFlags v).1 (verdictFlags v).2, some v, .top⟩
      | none => slowPath inp os d pkt src f
    else ⟨os, d, fate d.mode pkt src true false, none, .top⟩

end Pfsnitch
