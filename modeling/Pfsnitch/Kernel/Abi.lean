import Pfsnitch.Kernel.Queue
import Pfsnitch.Kernel.Verdict
import Pfsnitch.Lib.Layout

/-!
# Pfsnitch.Kernel.Abi

The device as it is compiled: the structs of `pfsnitch_ioctl.h` as bytes of memory, the
numbers of the ioctls, `pfsn_ioctl` on whatever bytes a process hands over, the
queue of `struct pfsn_req`s with its 64-bit ids, the hook on a sockaddr, and the bytes
that `pfsn_read` copies out.

What all this amounts to is the module of `Pfsnitch.Kernel.Module`; `Pfsnitch.Abi`
says so for every run.
-/

namespace Pfsnitch

open Lib

/-! ## the structs and the ioctls -/

/-- `struct pfsnitch_attr`. -/
abbrev attrLayout : List CType :=
  [.u32, .u8, .u8, .u16, .u16, .bytes 2, .bytes 16, .bytes 16, .u8, .bytes 3, .i32, .u32, .bytes 4,
    .bytes 24, .bytes 1024]

/-- `struct pfsnitch_verdict`. -/
abbrev verdictLayout : List CType :=
  [.u32, .u8, .u8, .u16, .bytes 16, .u8, .bytes 3, .bytes 1024]

/-- `struct pfsnitch_event`. -/
abbrev eventLayout : List CType :=
  [.u64, .u8, .u8, .u16, .bytes 16, .u8, .bytes 3, .i32, .u32, .bytes 1024]

/-- `struct pfsnitch_resolve`. -/
abbrev resolveLayout : List CType := [.u32, .u8, .bytes 3, .u64]

/-- `_IOC` of `<sys/ioccom.h>`: direction, group, number and the argument's size. -/
def iocCommand (inout group num : UInt64) (len : Nat) : UInt64 :=
  inout ||| ((UInt64.ofNat len &&& 0x1fff) <<< 16) ||| (group <<< 8) ||| num

/-- `IOCPARM_LEN`. -/
def iocparmLen (cmd : UInt64) : Nat := ((cmd >>> 16) &&& 0x1fff).toNat

def IOC_VOID : UInt64 := 0x20000000
def IOC_IN : UInt64 := 0x80000000
def IOC_INOUT : UInt64 := 0xc0000000

def PFSNITCH_ATTR_QUERY : UInt64 := iocCommand IOC_INOUT 0x46 1 (Struct.size attrLayout)
def PFSNITCH_VERDICT_PUSH : UInt64 := iocCommand IOC_IN 0x46 2 (Struct.size verdictLayout)
def PFSNITCH_VERDICT_FLUSH : UInt64 := iocCommand IOC_VOID 0x46 3 0
def PFSNITCH_RESOLVE : UInt64 := iocCommand IOC_IN 0x46 4 (Struct.size resolveLayout)
def PFSNITCH_UPCALL_SET : UInt64 := iocCommand IOC_IN 0x46 5 (Struct.size [.i32])

/-- The argument of `PFSNITCH_VERDICT_PUSH` in memory. -/
def PfsnitchVerdict.ofData (data : List UInt8) : PfsnitchVerdict :=
  let (version, af, proto, fport, faddr, verdict, _, path, _) := Struct.get verdictLayout data
  { version, af, proto, fport, faddr, verdict, path }

/-- `struct pfsnitch_resolve`. -/
structure PfsnitchResolve where
  version : UInt32
  verdict : UInt8
  id : UInt64

def PfsnitchResolve.ofData (data : List UInt8) : PfsnitchResolve :=
  let (version, verdict, _, id, _) := Struct.get resolveLayout data
  { version, verdict, id }

/-- `struct pfsnitch_attr`, the question in it and the answer. -/
structure PfsnitchAttr where
  version : UInt32
  af : UInt8
  proto : UInt8
  lport : UInt16
  fport : UInt16
  pad0 : { bs : List UInt8 // bs.length = 2 }
  laddr : Faddr
  faddr : Faddr
  found : UInt8
  pad1 : { bs : List UInt8 // bs.length = 3 }
  pid : Int32
  uid : UInt32
  pad2 : { bs : List UInt8 // bs.length = 4 }
  comm : { bs : List UInt8 // bs.length = 24 }
  path : { bs : List UInt8 // bs.length = 1024 }

namespace PfsnitchAttr

def ofData (data : List UInt8) : PfsnitchAttr :=
  let (version, af, proto, lport, fport, pad0, laddr, faddr, found, pad1, pid, uid, pad2, comm,
    path, _) := Struct.get attrLayout data
  { version, af, proto, lport, fport, pad0, laddr, faddr, found, pad1, pid, uid, pad2, comm, path }

def toData (q : PfsnitchAttr) : List UInt8 :=
  Struct.put attrLayout (q.version, q.af, q.proto, q.lport, q.fport, q.pad0, q.laddr, q.faddr,
    q.found, q.pad1, q.pid, q.uid, q.pad2, q.comm, q.path, ())

end PfsnitchAttr

example : [PFSNITCH_ATTR_QUERY, PFSNITCH_VERDICT_PUSH, PFSNITCH_VERDICT_FLUSH, PFSNITCH_RESOLVE,
    PFSNITCH_UPCALL_SET] = [0xC4544601, 0x841C4602, 0x20004603, 0x80104604, 0x80044605] := by decide

/-- The error numbers of the device, and of one that is gone. -/
inductive Errno where
  | efault
  | einval
  | enotty
  | enxio
  | ebadf
  | enodev
deriving DecidableEq, Repr

/-! ## the module's variables -/

/-- `struct pfsn_info`: the creator of a socket.  `comm` and `path` are C strings with what
may stand behind their NUL. -/
structure Creator where
  pid : Int32
  uid : UInt32
  comm : List UInt8
  path : List UInt8
deriving DecidableEq

/-- A socket as the hook gets it, with the record its label points to. -/
structure RawSocket where
  soType : SockType
  label : Option Creator
  nbio : Bool

/-- `struct pfsn_req`. -/
structure RawReq extends PfsnReq where
  id : UInt64
  nonblock : UInt8
  delivered : UInt8
  pid : Int32
  uid : UInt32
  born : Nat
  binary : nonblock = 0 ∨ nonblock = 1

/-- The variables of the module. -/
structure RawMod where
  vtab : Vtab := .empty
  reqs : List RawReq := []
  nextId : UInt64 := 1
  nreq : Nat := 0
  unloading : Bool := false
  upcallOn : Bool := false
  failmode : Int32 := 0

namespace RawMod

/-- `pfsn_failverdict`: `PFSNITCH_FAIL_CLOSED` is 1, and every other number is open. -/
def failVerdict (k : RawMod) : HookResult := if k.failmode = 1 then .eperm else .pass

/-- `pfsn_req_gc`. -/
def reqGc (k : RawMod) (now : Nat) : RawMod :=
  let kept := k.reqs.filter fun r => !decide (now - r.born > PFSN_REQ_GCAGE)
  { k with reqs := kept, nreq := k.nreq - (k.reqs.length - kept.length) }

/-- What `pfsn_upcall` compares: is the request for what `r` asks for? -/
def asks (r q : PfsnReq) : Bool :=
  q.af = r.af ∧ q.proto = r.proto ∧ q.fport = r.fport ∧
    q.faddr.1.take (familyBytes r.af) = r.faddr.1.take (familyBytes r.af) ∧
    q.pathlen = r.pathlen ∧ q.path.take r.pathlen.toNat = r.path.take r.pathlen.toNat

/-- The request that is queued for a miss. -/
def newReq (k : RawMod) (r : PfsnReq) (info : Creator) (nonblock : Bool) (now : Nat) : RawReq :=
  { r with
    id := k.nextId
    nonblock := if nonblock then 1 else 0
    delivered := 0
    pid := info.pid
    uid := info.uid
    born := now
    binary := by cases nonblock <;> simp }

/-- `pfsn_upcall`. -/
def upcall (k : RawMod) (stack : Faddr) (proto : UInt8) (addr : IpAddr) (fport : UInt16)
    (info : Creator) (nonblock memory : Bool) (now : Nat) : HookResult × RawMod :=
  match pfsnUpcall stack proto addr fport info.path with
  | none => (.pass, k)
  | some r =>
    if k.unloading then (k.failVerdict, k)
    else if k.reqs.any fun q => asks r q.toPfsnReq then (.eagain, k)
    else if k.nreq ≥ PFSN_REQ_MAX then (k.failVerdict, k)
    else
      let k := k.reqGc now
      if !memory then (k.failVerdict, k)
      else
        (.eagain,
          { k with
            reqs := k.reqs ++ [k.newReq r info nonblock now]
            nextId := k.nextId + 1
            nreq := k.nreq + 1 })

/-- The loopback test, on the bytes that were copied out of the sockaddr. -/
def loopback (af : UInt8) (faddr : Faddr) : Bool :=
  if af = 4 then faddr.1.getD 0 0 = 127
  else
    faddr.1 = [0, 0, 0, 0, 0, 0, 0, 0, 0, 0, 0, 0, 0, 0, 0, 1] ∨
      (faddr.1.getD 10 0 = 0xff ∧ faddr.1.getD 11 0 = 0xff ∧ faddr.1.getD 12 0 = 127)

/-- `pfsn_socket_check_connect`; the port is in network order. -/
def checkConnect (k : RawMod) (so : RawSocket) (sa : SockAddr) (stack : Faddr) (memory : Bool)
    (now : Nat) : HookResult × RawMod :=
  let governed (proto : UInt8) : HookResult × RawMod :=
    match sa with
    | .other => (.pass, k)
    | .inet addr fport =>
      let (af, faddr) := hookAddr addr stack
      if loopback af faddr then (.pass, k)
      else
        match so.label with
        | none => (.pass, k)
        | some info =>
          if cstring info.path = [] then (.pass, k)
          else
            let verdict := k.vtab.lookup af proto faddr fport info.path
            if verdict = PFSNITCH_V_DENY then (.eperm, k)
            else if verdict = PFSNITCH_V_ALLOW then (.pass, k)
            else if k.upcallOn ∧ proto = IPPROTO_UDP ∧ ntohs fport ≠ 53 then
              k.upcall stack proto addr fport info so.nbio memory now
            else (.pass, k)
  match so.soType with
  | .stream => governed IPPROTO_TCP
  | .dgram => governed IPPROTO_UDP
  | .other => (.pass, k)

/-! ### ioctls -/

/-- `pfsn_verdict_push`. -/
def verdictPush (k : RawMod) (pv : PfsnitchVerdict) (memory : Bool) : RawMod :=
  let plen := (cstring pv.path.1).length
  if plen = 0 ∨ plen ≥ 1024 then k
  else
    { k with
      vtab := k.vtab.cacheInsert memory pv.af pv.proto pv.faddr pv.fport pv.verdict pv.path.1
        (plen + 1) }

/-- `pfsn_resolve`. -/
def resolve (k : RawMod) (id : UInt64) (verdict : UInt8) (memory : Bool) : RawMod :=
  match k.reqs.find? fun r => r.id = id with
  | some r =>
    { k with
      vtab := k.vtab.cacheInsert memory r.af r.proto r.faddr r.fport verdict r.path r.pathlen.toNat
      reqs := k.reqs.eraseP fun r => r.id = id
      nreq := k.nreq - 1 }
  | none => k

/-- `pfsn_ioctl`: the new state, and what is copied back to the caller.  `lookup` is
`pfsn_lookup`. -/
def ioctl (k : RawMod) (lookup : PfsnitchAttr → PfsnitchAttr) (cmd : UInt64) (data : List UInt8)
    (memory : Bool) : Except Errno (RawMod × List UInt8) :=
  if cmd = PFSNITCH_VERDICT_PUSH then
    let pv := PfsnitchVerdict.ofData data
    if pv.version ≠ PFSNITCH_ATTR_VERSION then .error .einval
    else if pv.af ≠ 4 ∧ pv.af ≠ 6 then .error .einval
    else if pv.proto ≠ IPPROTO_TCP ∧ pv.proto ≠ IPPROTO_UDP then .error .einval
    else if pv.verdict ≠ PFSNITCH_V_ALLOW ∧ pv.verdict ≠ PFSNITCH_V_DENY then .error .einval
    else .ok (k.verdictPush pv memory, data)
  else if cmd = PFSNITCH_VERDICT_FLUSH then .ok ({ k with vtab := .empty }, data)
  else if cmd = PFSNITCH_RESOLVE then
    let pr := PfsnitchResolve.ofData data
    if pr.version ≠ PFSNITCH_ATTR_VERSION then .error .einval
    else if pr.verdict ≠ PFSNITCH_V_ALLOW ∧ pr.verdict ≠ PFSNITCH_V_DENY then .error .einval
    else .ok (k.resolve pr.id pr.verdict memory, data)
  else if cmd = PFSNITCH_UPCALL_SET then
    let on : Int32 := CType.i32.get data
    .ok ({ k with upcallOn := on ≠ 0 }, data)
  else if cmd ≠ PFSNITCH_ATTR_QUERY then .error .enotty
  else
    let q := PfsnitchAttr.ofData data
    if q.version ≠ PFSNITCH_ATTR_VERSION then .error .einval
    else if q.af ≠ 4 ∧ q.af ≠ 6 then .error .einval
    else if q.proto ≠ IPPROTO_TCP ∧ q.proto ≠ IPPROTO_UDP then .error .einval
    else .ok (k, (lookup q).toData)

/-- `ioctl(2)` on the device: as many bytes of the caller's memory are copied in as the
command's number says. -/
def sysIoctl (k : RawMod) (lookup : PfsnitchAttr → PfsnitchAttr) (cmd : UInt64)
    (user : List UInt8) (memory : Bool) : Except Errno (RawMod × List UInt8) :=
  if user.length < iocparmLen cmd then .error .efault
  else k.ioctl lookup cmd (user.take (iocparmLen cmd)) memory

/-! ### reads -/

/-- `strlcpy` into a buffer. -/
def strlcpy (dst src : List UInt8) : List UInt8 :=
  let s := (cstring src).take (dst.length - 1)
  (s ++ [0] ++ dst.drop (s.length + 1)).take dst.length

theorem length_strlcpy (dst src : List UInt8) : (strlcpy dst src).length = dst.length := by
  simp only [strlcpy, List.length_take, List.length_append, List.length_drop, List.length_singleton]
  omega

/-- The `struct pfsnitch_event` of a request, in memory that was cleared before. -/
def event (r : RawReq) : List UInt8 :=
  Struct.put eventLayout (r.id, r.af, r.proto, r.fport, r.faddr, r.nonblock, CType.zeros 3,
    r.pid, r.uid,
    ⟨strlcpy (List.replicate 1024 0) r.path, (length_strlcpy _ _).trans List.length_replicate⟩, ())

/-- What a `read` of so many bytes ends in: an error, end of file, an event to be copied
out, or it sleeps. -/
inductive ReadResult where
  | einval
  | eof
  | event (id : UInt64) (bytes : List UInt8)
  | wait

/-- Mark the first request that is not delivered. -/
def markFirst : List RawReq → List RawReq
  | [] => []
  | r :: rest => if r.delivered = 0 then { r with delivered := 1 } :: rest else r :: markFirst rest

/-- `pfsn_read`, up to the copy to the reader. -/
def read (k : RawMod) (resid : Nat) : ReadResult × RawMod :=
  if resid < Struct.size eventLayout then (.einval, k)
  else if k.unloading ∨ !k.upcallOn then (.eof, k)
  else
    match k.reqs.find? fun r => r.delivered = 0 with
    | some r => (.event r.id (event r), { k with reqs := markFirst k.reqs })
    | none => (.wait, k)

/-- A request whose event could not be copied out is to be delivered again. -/
def redeliverIn (id : UInt64) : List RawReq → List RawReq
  | [] => []
  | r :: rest => if r.id = id then { r with delivered := 0 } :: rest else r :: redeliverIn id rest

/-- The second half of `pfsn_read`, when `uiomove` has failed. -/
def redeliver (k : RawMod) (id : UInt64) : RawMod := { k with reqs := redeliverIn id k.reqs }

/-- `pfsn_dev_close`. -/
def devClose (k : RawMod) : RawMod := { k with upcallOn := false }

end RawMod

end Pfsnitch
