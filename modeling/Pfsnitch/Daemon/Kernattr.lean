import Pfsnitch.Daemon.World
import Pfsnitch.Kernel.Abi
import Pfsnitch.Procinfo.Tables

/-!
# Pfsnitch.Daemon.Kernattr

The daemon's end of the device: the structs of `kernattr.rs`, the bytes that each call
hands to `ioctl`, and what is made of the bytes that come back.
-/

namespace Pfsnitch

open Lib

namespace Kernattr

/-! ## the structs -/

/-- `PfsnitchAttr`. -/
abbrev attrLayout : List CType :=
  [.u32, .u8, .u8, .u16, .u16, .bytes 2, .bytes 16, .bytes 16, .u8, .bytes 3, .i32, .u32, .bytes 4,
    .bytes 24, .bytes 1024]

/-- `PfsnitchVerdict`. -/
abbrev verdictLayout : List CType :=
  [.u32, .u8, .u8, .u16, .bytes 16, .u8, .bytes 3, .bytes 1024]

/-- `PfsnitchEvent`. -/
abbrev eventLayout : List CType :=
  [.u64, .u8, .u8, .u16, .bytes 16, .u8, .bytes 3, .i32, .u32, .bytes 1024]

/-- `PfsnitchResolve`. -/
abbrev resolveLayout : List CType := [.u32, .u8, .bytes 3, .u64]

/-- A `const fn ioc`. -/
def ioc (inout num : UInt64) (len : Nat) : UInt64 :=
  inout ||| ((UInt64.ofNat len &&& 0x1fff) <<< 16) ||| ((0x46 : UInt64) <<< 8) ||| num

def attrQueryCmd : UInt64 := ioc 0xc0000000 1 (Struct.size attrLayout)
def verdictPushCmd : UInt64 := ioc 0x80000000 2 (Struct.size verdictLayout)
def verdictFlushCmd : UInt64 := ioc 0x20000000 3 0
def resolveCmd : UInt64 := ioc 0x80000000 4 (Struct.size resolveLayout)
def upcallSetCmd : UInt64 := ioc 0x80000000 5 (Struct.size [.i32])

/-! ## calls -/

/-- A call: the number of the ioctl and the memory it is given. -/
structure Call where
  cmd : UInt64
  mem : List UInt8
deriving DecidableEq

/-- `u16::to_be`, on a little-endian machine, and `u16::from_be`. -/
def toBe (x : UInt16) : UInt16 := ntohs x

/-- The family and the address field of an address. -/
def familyOf : IpAddr → UInt8
  | .v4 _ => 4
  | .v6 _ => 6

def addrField : IpAddr → Faddr
  | .v4 a => ⟨a.octets ++ List.replicate 12 0, by simp [Ipv4Addr.octets]⟩
  | .v6 a => ⟨a.octets, a.size⟩

def verdictByte (allow : Bool) : UInt8 := if allow then 1 else 2

/-- A path in a field of 1024 bytes that was zeroed. -/
def pathField (pb : List UInt8) : { bs : List UInt8 // bs.length = 1024 } :=
  ⟨CType.firstBytes 1024 pb, CType.length_firstBytes 1024 pb⟩

/-- The ioctl of `push_verdict`. -/
def verdictCall (proto : UInt8) (dst : IpAddr) (dport : UInt16) (pb : List UInt8) (allow : Bool) :
    Call where
  cmd := verdictPushCmd
  mem := Struct.put verdictLayout (1, familyOf dst, proto, toBe dport, addrField dst,
    verdictByte allow, CType.zeros 3, pathField pb, ())

/-- `push_verdict`: nothing is called for a path that cannot be keyed on. -/
def pushVerdict (proto : UInt8) (dst : IpAddr) (dport : UInt16) (path : Str) (allow : Bool) :
    Option Call :=
  let pb := utf8Bytes path
  if proto ≠ 6 ∧ proto ≠ 17 then none
  else if pb = [] ∨ pb.length ≥ 1024 then none
  else some (verdictCall proto dst dport pb allow)

/-- `flush_verdicts`. -/
def flushVerdicts : Call := ⟨verdictFlushCmd, []⟩

/-- `resolve`. -/
def resolve (id : UInt64) (allow : Bool) : Call :=
  ⟨resolveCmd, Struct.put resolveLayout (1, verdictByte allow, CType.zeros 3, id, ())⟩

/-- `set_upcall`. -/
def setUpcall (on : Bool) : Call :=
  ⟨upcallSetCmd, Struct.put [.i32] ((if on then 1 else 0 : Int32), ())⟩

/-- `note_errno`: which errors mean that the device is gone. -/
def dead : Errno → Bool
  | .enotty | .enxio | .ebadf | .enodev => true
  | .efault | .einval => false

/-! ## queries -/

/-- The ioctl of `query`. -/
def queryCall (t : Procinfo.Tuple) : Call where
  cmd := attrQueryCmd
  mem := Struct.put attrLayout (1, familyOf t.dst, t.proto, toBe t.sport, toBe t.dport,
    CType.zeros 2, addrField t.src, addrField t.dst, 0, CType.zeros 3, (0 : Int32), 0,
    CType.zeros 4, CType.zeros 24, CType.zeros 1024, ())

/-- `query`: the kernel is asked about a flow of one family, TCP or UDP. -/
def query (t : Procinfo.Tuple) : Option Call :=
  if t.proto ≠ 6 ∧ t.proto ≠ 17 then none
  else if familyOf t.src ≠ familyOf t.dst then none
  else some (queryCall t)

/-- What `query` makes of the memory the ioctl has left. -/
def answer (mem : List UInt8) : Option Procinfo.Attribution :=
  let (_, _, _, _, _, _, _, _, found, _, pid, _, _, comm, path, _) := Struct.get attrLayout mem
  if found = 0 then none
  else
    let command := utf8Lossy (cstring comm.1)
    let path := utf8Lossy (cstring path.1)
    some
      { owner :=
          { pid := pid.toInt
            command
            path := if path = [] then "<unknown:".toList ++ command ++ ['>'] else path }
        confidence := .kernel }

/-! ## events -/

/-- What `read_event` returns. -/
inductive ReadEvent where
  | eof
  | event (ev : KernEvent)
  | shortEvent
  | badAf
deriving DecidableEq

/-- `read_event`, on the bytes that `read` has returned. -/
def readEvent (bytes : List UInt8) : ReadEvent :=
  if bytes.length = 0 then .eof
  else if bytes.length ≠ Struct.size eventLayout then .shortEvent
  else
    let (id, af, proto, fport, faddr, nonblock, _, pid, uid, path, _) := Struct.get eventLayout bytes
    let event (dst : IpAddr) : ReadEvent :=
      .event
        { id := id.toNat
          proto
          dst
          dport := toBe fport
          nonblock := nonblock ≠ 0
          pid := pid.toInt
          uid
          path := utf8Lossy (cstring path.1) }
    if af = 4 then
      event (.v4 ⟨faddr.1.getD 0 0, faddr.1.getD 1 0, faddr.1.getD 2 0, faddr.1.getD 3 0⟩)
    else if af = 6 then event (.v6 ⟨faddr.1, faddr.2⟩)
    else .badAf

end Kernattr

end Pfsnitch
