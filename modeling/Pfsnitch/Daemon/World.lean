import Pfsnitch.Policy.Contents
import Pfsnitch.Kernel.Hook
import Pfsnitch.Dns

/-!
# Pfsnitch.Daemon.World

The state of the system: the operating system with the kernel module, the
`udpdivert` anchor and the policy file, and the daemon with everything `run`
keeps in its local variables, its channels and its threads.

The daemon's control state is explicit (`Pc`).  Where an effect of one
iteration is visible to the kernel, to pf or to the file system, it is a step
of its own (`Op`), so that anything can happen between two of them.
-/

namespace Pfsnitch

open Lib

/-! ## the outside -/

/-- The owner of a flow, as attribution names it. -/
structure Attribution where
  pid : Int
  command : Str
  path : Str
  confidence : Str
deriving DecidableEq

/-- What attribution (`k.query` or else `Resolver::resolve`) and `Identity::hash`
answer at this moment. -/
structure Env where
  owner : FlowKey → Option Attribution
  hash : Str → Option Digest

/-- The policy file: its bytes and its modification time. -/
structure PolicyFile where
  data : List UInt8
  mtime : Nat
deriving DecidableEq

/-- A policy file that holds this text. -/
def PolicyFile.ofText (text : Str) (mtime : Nat) : PolicyFile := ⟨utf8Bytes text, mtime⟩

/-- The operating system.  `gen` counts the loads of the module, so that a
device opened before a reload is told apart from the present one. -/
structure Os where
  kmod : Option KMod
  gen : Nat
  udpdivert : Bool
  policy : Option PolicyFile
  env : Env
  /-- Milliseconds since boot. -/
  now : Nat

/-- The address a diverted packet arrived with: zero means outbound. -/
structure Sockaddr where
  addr : UInt32
  port : UInt16
deriving DecidableEq

/-! ## the daemon -/

/-- `KernEvent`: a miss the hook asks about. -/
structure KernEvent where
  id : Nat
  proto : UInt8
  dst : IpAddr
  dport : UInt16
  nonblock : Bool
  pid : Int
  uid : UInt32
  path : Str
deriving DecidableEq

/-- `Pending`: a prompt that has been raised and not yet answered. -/
structure Pending where
  host : Option Str
  exe : Option Str
  dst : IpAddr
  dport : UInt16
deriving DecidableEq

/-- What a prompt program is started with. -/
structure Prompt where
  changed : Bool
  exe : Option Str
  pid : Int
  cmd : Str
  dst : IpAddr
  dport : UInt16
  host : Str
  scope : Str
deriving DecidableEq

/-- The question a prompt was raised for, as its thread sends it back. -/
def Prompt.pending (p : Prompt) : Pending where
  host := if p.host = [] then none else some p.host
  exe := p.exe
  dst := p.dst
  dport := p.dport

/-- What counts as the same question: binary and destination. -/
abbrev AskKey := Str × Str

/-- `ask_key`. -/
def askKey [Casing] (host : Option Str) (dst : IpAddr) : Str :=
  match namedHost host with
  | some h => lower h
  | none => showIpAddr dst

/-- A miss that waits for a prompt.  The daemon keeps its id; the event and the
name it was asked under are kept here to say what an answer settles. -/
structure Waiter where
  ev : KernEvent
  host : Option Str
deriving DecidableEq

/-- An open descriptor of the query device. -/
structure Handle where
  gen : Nat
  dead : Bool
deriving DecidableEq

/-- A reader thread: its descriptor, whether it has been spawned, and the event
it has read and not yet sent on. -/
structure Reader where
  gen : Nat
  started : Bool
  holding : Option KernEvent
deriving DecidableEq

/-- One effect of the daemon outside its loop's drains and packet handling. -/
inductive Op where
  /-- `Policy::load` and the mode, at start-up. -/
  | loadPolicy
  /-- `kern_backend`: open the device if the policy asks for it. -/
  | openBackend
  /-- `flush_verdicts` on the handle, if there is one. -/
  | flushVerdicts
  /-- `pol_mtime = mtime(path)`. -/
  | readMtime
  /-- Bind the divert port. -/
  | bind
  /-- Drop a dead handle, or try to open a missing one. -/
  | reopen
  /-- Compare the file's modification time with the watermark. -/
  | checkMtime
  /-- Load the changed file. -/
  | reload
  /-- `decided.clear()`. -/
  | clearDecided
  /-- Compare the wanted with the present upcall state. -/
  | reconcile
  /-- Open the reader's descriptor. -/
  | openReader
  /-- `set_upcall` on the handle, if there is one. -/
  | setUpcall (on : Bool)
  /-- Spawn the reader thread. -/
  | spawnReader
  /-- `upcall_on = true`. -/
  | markOn
  /-- `upcall_on = false; pending_upcalls.clear()`. -/
  | markOff
  /-- `set_udp_divert`. -/
  | setUdpDivert (divert : Bool)
deriving DecidableEq

/-- Where the daemon is.  `ticking` remembers whether the present tick has
reloaded the policy; `learning` comes after a packet whose flow was learned. -/
inductive Pc where
  | starting (ops : List Op)
  | top
  | answers
  | upcalls
  | timers
  | ticking (reloaded : Bool) (ops : List Op)
  | recv
  | learning (ops : List Op)
  | stopping (ops : List Op)
deriving DecidableEq

/-- The daemon: the local variables of `run`, its channels and its threads. -/
structure Daemon where
  fallback : Mode
  pol : Policy
  mode : Mode
  kern : Option Handle
  polMtime : Option Nat
  lastCheck : Nat
  shutdown : Bool
  rx : List (Answer × Pending)
  urx : List KernEvent
  upcallOn : Bool
  pendingUpcalls : AList fun _ : AskKey => List Waiter
  names : DnsCache
  asking : Finset AskKey
  decided : AList fun _ : FlowKey => Verdict
  prompts : List Prompt
  readers : List Reader
  pc : Pc

/-- The whole system. -/
structure World where
  os : Os
  daemon : Option Daemon

/-! ## what may go wrong, and what is seen -/

/-- The outcome of an ioctl on a device that is there: success, or an error
that may or may not be taken for the device's death. -/
inductive IoctlOutcome where
  | ok
  | fail (fatal : Bool)
deriving DecidableEq

/-- What the surroundings contribute to one step of the daemon; the calls of a
step are numbered. -/
structure Input where
  ioctl : Nat → IoctlOutcome := fun _ => .ok
  memory : Nat → Bool := fun _ => true
  openOk : Bool := true
  pfctlOk : Bool := true
  bindOk : Bool := true
  appendOk : Str → Bool := fun _ => true
  /-- The modification time an append leaves. -/
  mtime : Nat := 0
  /-- The packet `recv` returns, if any. -/
  packet : Option (Packet × Sockaddr) := none

/-- What becomes visible. -/
inductive Output where
  /-- A diverted packet continues through the stack. -/
  | reinject (pkt : Packet) (sa : Sockaddr)
  /-- A synthesised reset is delivered to the local stack. -/
  | reset (pkt : Packet)
  /-- A prompt program is started. -/
  | prompt (p : Prompt)
  /-- The connect hook returns. -/
  | hook (r : HookResult)
deriving DecidableEq

/-! ## the device -/

/-- The module instance a descriptor reaches. -/
def Os.reach (os : Os) (gen : Nat) : Option KMod := if gen = os.gen then os.kmod else none

/-- An ioctl through a handle.  A dead handle is not used; a descriptor whose
device is gone gets an error that marks it dead. -/
def Os.ioctl (os : Os) (h : Handle) (out : IoctlOutcome) (f : KMod → KMod) : Os × Handle :=
  if h.dead then (os, h)
  else
    match os.reach h.gen, out with
    | some k, .ok => ({ os with kmod := some (f k) }, h)
    | some _, .fail fatal => (os, { h with dead := fatal })
    | none, _ => (os, { h with dead := true })

/-- An ioctl on the daemon's handle, if it has one. -/
def kernIoctl (os : Os) (kern : Option Handle) (out : IoctlOutcome) (f : KMod → KMod) :
    Os × Option Handle :=
  match kern with
  | some h => let (os, h) := os.ioctl h out f; (os, some h)
  | none => (os, none)

/-- The descriptors a daemon has open on the present device. -/
def Daemon.holdsDevice (d : Daemon) (gen : Nat) : Bool :=
  (d.kern.any fun h => h.gen = gen) || d.readers.any fun r => r.gen = gen

/-- A descriptor of generation `gen` was closed; the last close of the present
device turns the upcall off. -/
def Os.closed (os : Os) (gen : Nat) (stillOpen : Bool) : Os :=
  if gen = os.gen ∧ stillOpen = false then { os with kmod := os.kmod.map KMod.devClose } else os

/-- Close the daemon's handle, if it has one. -/
def closeKern (os : Os) (d : Daemon) : Os × Daemon :=
  match d.kern with
  | some h =>
    let d := { d with kern := none }
    (os.closed h.gen (d.holdsDevice h.gen), d)
  | none => (os, d)

/-- All descriptors of a daemon that is gone are closed. -/
def closeAll (os : Os) (d : Daemon) : Os :=
  if d.holdsDevice os.gen then { os with kmod := os.kmod.map KMod.devClose } else os

/-- Open the device: it must be there. -/
def openDevice (os : Os) (openOk : Bool) : Option Handle :=
  if os.kmod.isSome ∧ openOk = true then some ⟨os.gen, false⟩ else none

/-! ## the policy file -/

/-- The policy file as it is stored. -/
def Os.policyData (os : Os) : Option (List UInt8) := os.policy.map (·.data)

/-- `policy::mtime`. -/
def Os.policyMtime (os : Os) : Option Nat := os.policy.map (·.mtime)

/-- Append lines to the policy file; a file that is written gets a new time. -/
def Os.appendPolicy (os : Os) (inp : Input) (ls : List Str) : Os :=
  if ls.any inp.appendOk then
    { os with policy := (appendLines inp.appendOk os.policyData ls).map fun data => ⟨data, inp.mtime⟩ }
  else os

/-! An append touches the file only. -/

@[simp] theorem Os.appendPolicy_kmod (os : Os) (inp : Input) (ls : List Str) :
    (os.appendPolicy inp ls).kmod = os.kmod := by
  unfold Os.appendPolicy
  split <;> rfl

@[simp] theorem Os.appendPolicy_gen (os : Os) (inp : Input) (ls : List Str) :
    (os.appendPolicy inp ls).gen = os.gen := by
  unfold Os.appendPolicy
  split <;> rfl

@[simp] theorem Os.appendPolicy_udpdivert (os : Os) (inp : Input) (ls : List Str) :
    (os.appendPolicy inp ls).udpdivert = os.udpdivert := by
  unfold Os.appendPolicy
  split <;> rfl

end Pfsnitch
