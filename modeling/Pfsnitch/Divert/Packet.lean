import Pfsnitch.Lib.IpAddr

/-!
# Pfsnitch.Divert.Packet

The IPv4/IPv6 header parse of the divert loop (`skip_ext`, `l3`, `parse`,
`payload_offset`), and the reset it answers a denied TCP segment with
(`csum`, `tcp_rst`).
-/

namespace Pfsnitch

open Lib

/-- The bytes of a diverted packet. -/
abbrev Packet := List UInt8

/-- A byte at an index that the caller has checked. -/
def byteAt (pkt : Packet) (i : Nat) : UInt8 := pkt.getD i 0

/-- `u16::from_be_bytes`. -/
def beU16 (hi lo : UInt8) : UInt16 := UInt16.ofNat (hi.toNat * 256 + lo.toNat)

theorem byteAt_append (hdr tcp : List UInt8) (i : Nat) :
    byteAt (hdr ++ tcp) (hdr.length + i) = byteAt tcp i := by
  rw [byteAt, byteAt, List.getD_eq_getElem?_getD, List.getD_eq_getElem?_getD,
    List.getElem?_append_right (Nat.le_add_right _ _), Nat.add_sub_cancel_left]

theorem toNat_beU16 (hi lo : UInt8) : (beU16 hi lo).toNat = hi.toNat * 256 + lo.toNat := by
  have hhi := hi.toNat_lt
  have hlo := lo.toNat_lt
  rw [beU16, UInt16.toNat_ofNat']
  omega

/-- The sixteen bytes of an IPv6 address in a packet. -/
def ipv6At (pkt : Packet) (off : Nat) : Option Ipv6Addr :=
  if h : ((pkt.drop off).take 16).length = 16 then some ⟨(pkt.drop off).take 16, h⟩ else none

theorem ipv6At_eq {pkt : Packet} {off : Nat} {a : Ipv6Addr}
    (ha : (pkt.drop off).take 16 = a.octets) : ipv6At pkt off = some a := by
  obtain ⟨octets, size⟩ := a
  obtain rfl : (pkt.drop off).take 16 = octets := ha
  rw [ipv6At, dif_pos size]

/-- `Flow`: what identifies a flow, and whether it is being opened. -/
structure Flow where
  proto : UInt8
  src : IpAddr
  dst : IpAddr
  sport : UInt16
  dport : UInt16
  synOnly : Bool
deriving DecidableEq, Repr

/-- The 5-tuple a settled verdict is kept under. -/
abbrev FlowKey := UInt8 × IpAddr × UInt16 × IpAddr × UInt16

def Flow.key (f : Flow) : FlowKey := (f.proto, f.src, f.sport, f.dst, f.dport)

/-! ## the extension header walk -/

/-- What the walk does at one header: it stops at the upper layer, refuses the
packet, or steps over a header of the given length. -/
inductive ExtStep where
  | upper
  | refuse
  | over (len : Nat)

/-- The `match` of `skip_ext` on the header type. -/
def extStep (pkt : Packet) (nh : UInt8) (off : Nat) : ExtStep :=
  if nh = 0 ∨ nh = 43 ∨ nh = 60 then
    match pkt[off + 1]? with
    | some b => .over ((b.toNat + 1) * 8)
    | none => .refuse
  else if nh = 44 then
    match pkt[off + 2]?, pkt[off + 3]? with
    | some hi, some lo => if (hi.toNat * 256 + lo.toNat) >>> 3 ≠ 0 then .refuse else .over 8
    | _, _ => .refuse
  else if nh = 51 then
    match pkt[off + 1]? with
    | some b => .over ((b.toNat + 2) * 4)
    | none => .refuse
  else .upper

/-- The loop of `skip_ext`, with the number of turns left. -/
def skipExtLoop (pkt : Packet) : Nat → UInt8 → Nat → Option (UInt8 × Nat)
  | 0, _, _ => none
  | turns + 1, nh, off =>
    match extStep pkt nh off with
    | .upper => some (nh, off)
    | .refuse => none
    | .over len =>
      match pkt[off]? with
      | some nh' => if off + len ≥ pkt.length then none else skipExtLoop pkt turns nh' (off + len)
      | none => none

/-- `skip_ext`: the chain is followed for eight turns. -/
def skipExt (pkt : Packet) (nh : UInt8) (off : Nat) : Option (UInt8 × Nat) :=
  skipExtLoop pkt 8 nh off

/-! ## flows -/

/-- `L3`: the upper-layer protocol and the offset its header starts at. -/
structure L3 where
  proto : UInt8
  src : IpAddr
  dst : IpAddr
  l4 : Nat
deriving DecidableEq, Repr

/-- `l3`. -/
def l3 (pkt : Packet) : Option L3 :=
  match pkt.head? with
  | none => none
  | some b =>
    if b.toNat / 16 = 4 then
      let ihl := (byteAt pkt 0).toNat % 16 * 4
      if pkt.length < 20 then none
      else if ihl < 20 ∨ pkt.length < ihl then none
      else some {
        proto := byteAt pkt 9
        src := .v4 ⟨byteAt pkt 12, byteAt pkt 13, byteAt pkt 14, byteAt pkt 15⟩
        dst := .v4 ⟨byteAt pkt 16, byteAt pkt 17, byteAt pkt 18, byteAt pkt 19⟩
        l4 := ihl }
    else if b.toNat / 16 = 6 then
      if pkt.length < 40 then none
      else
        match ipv6At pkt 8, ipv6At pkt 24, skipExt pkt (byteAt pkt 6) 40 with
        | some s, some d, some (proto, l4) => some { proto, src := .v6 s, dst := .v6 d, l4 }
        | _, _, _ => none
    else none

/-- SYN set and ACK clear. -/
def isSyn (flags : UInt8) : Bool := flags &&& 0x02 != 0 && flags &&& 0x10 == 0

/-- `parse`. -/
def parse (pkt : Packet) : Option Flow :=
  match l3 pkt with
  | none => none
  | some h =>
    if pkt.length < h.l4 + 4 then none
    else some {
      proto := h.proto
      src := h.src
      dst := h.dst
      sport := beU16 (byteAt pkt h.l4) (byteAt pkt (h.l4 + 1))
      dport := beU16 (byteAt pkt (h.l4 + 2)) (byteAt pkt (h.l4 + 3))
      -- a connection attempt is SYN set and ACK clear
      synOnly := h.proto == 6 && decide (pkt.length ≥ h.l4 + 14) && isSyn (byteAt pkt (h.l4 + 13)) }

/-- `payload_offset`. -/
def payloadOffset (pkt : Packet) : Option Nat :=
  match l3 pkt with
  | none => none
  | some h =>
    if h.proto = 17 then some (h.l4 + 8)
    else if h.proto = 6 then
      (pkt[h.l4 + 12]?).map fun b => h.l4 + b.toNat / 16 * 4
    else none

/-! ## resets -/

/-- The big-endian bytes of a 16-bit number. -/
def be16 (n : Nat) : List UInt8 := [UInt8.ofNat (n / 256), UInt8.ofNat n]

/-- The two bytes of a 16-bit number. -/
theorem toNat_be16 {n : Nat} (hn : n < 65536) :
    (UInt8.ofNat (n / 256)).toNat * 256 + (UInt8.ofNat n).toNat = n := by
  rw [UInt8.toNat_ofNat', UInt8.toNat_ofNat']
  omega

theorem beU16_be16 (x : UInt16) :
    beU16 (UInt8.ofNat (x.toNat / 256)) (UInt8.ofNat x.toNat) = x := by
  rw [← UInt16.toNat_inj, toNat_beU16, toNat_be16 x.toNat_lt]

/-- The big-endian bytes of a 32-bit number. -/
def be32 (n : UInt32) : List UInt8 :=
  be16 (n.toNat / 65536) ++ be16 (n.toNat % 65536)

/-- The sum of the 16-bit words of one part, with a byte carried over from the
part before, and the byte left over. -/
def csumPart (sum : UInt32) : Option UInt8 → List UInt8 → UInt32 × Option UInt8
  | some hi, lo :: rest => csumPart (sum + (beU16 hi lo).toUInt32) none rest
  | none, hi :: rest => csumPart sum (some hi) rest
  | carry, [] => (sum, carry)

/-- The carries of a 32-bit sum folded into 16 bits; two folds suffice. -/
def csumFold : Nat → UInt32 → UInt32
  | 0, sum => sum
  | n + 1, sum => if sum >>> (16 : UInt32) ≠ 0 then csumFold n ((sum &&& (0xffff : UInt32)) + (sum >>> (16 : UInt32))) else sum

/-- `csum`: the ones-complement sum of the concatenated parts. -/
def csum (parts : List (List UInt8)) : UInt16 :=
  let (sum, carry) := parts.foldl (fun (s, c) part => csumPart s c part) (0, none)
  let sum := match carry with
    | some hi => sum + (beU16 hi 0).toUInt32
    | none => sum
  ~~~ (csumFold 3 sum).toUInt16

/-- The TCP header of a reset, with the given checksum. -/
def rstHeader (dport sport : UInt16) (ack : UInt32) (ck : UInt16) : List UInt8 :=
  be16 dport.toNat ++ be16 sport.toNat ++ be32 0 ++ be32 ack ++ [0x50, 0x14] ++ be16 0 ++
    be16 ck.toNat ++ be16 0

/-- `tcp_rst`: the reset that answers a segment, from the peer to the sender.
Anything but TCP gets none, and neither does a reset. -/
def tcpRst (pkt : Packet) : Option Packet :=
  match l3 pkt with
  | none => none
  | some h =>
    if h.proto ≠ 6 ∨ pkt.length < h.l4 + 20 then none
    else
      let flags := byteAt pkt (h.l4 + 13)
      if flags &&& 0x04 ≠ 0 then none
      else
        let sport := beU16 (byteAt pkt h.l4) (byteAt pkt (h.l4 + 1))
        let dport := beU16 (byteAt pkt (h.l4 + 2)) (byteAt pkt (h.l4 + 3))
        let seq : UInt32 := UInt32.ofNat
          ((beU16 (byteAt pkt (h.l4 + 4)) (byteAt pkt (h.l4 + 5))).toNat * 65536 +
            (beU16 (byteAt pkt (h.l4 + 6)) (byteAt pkt (h.l4 + 7))).toNat)
        -- a SYN consumes one sequence number
        let ack := seq + if flags &&& 0x02 ≠ 0 then 1 else 0
        let tcp := rstHeader dport sport ack
        match h.src, h.dst with
        | .v4 s, .v4 d =>
          let pseudo := d.octets ++ s.octets ++ [0, 6, 0, 20]
          let ip (hc : UInt16) : List UInt8 :=
            [0x45, 0] ++ be16 40 ++ be16 0 ++ be16 0 ++ [64, 6] ++ be16 hc.toNat ++
              d.octets ++ s.octets
          some (ip (csum [ip 0]) ++ tcp (csum [pseudo, tcp 0]))
        | .v6 s, .v6 d =>
          let pseudo := d.octets ++ s.octets ++ be32 20 ++ [0, 0, 0, 6]
          some ([0x60, 0, 0, 0] ++ be16 20 ++ [6, 64] ++ d.octets ++ s.octets ++
            tcp (csum [pseudo, tcp 0]))
        | _, _ => none

end Pfsnitch
