import Pfsnitch.Divert.Packet
import Pfsnitch.Lib.Utf8
import Mathlib.Data.List.AList

/-!
# Pfsnitch.Dns

The DNS reader (`dns.rs`): names are learned from the answers that pass by,
and remembered for the addresses they resolve to.
-/

namespace Pfsnitch

open Lib

/-! ## reading a response -/

/-- The loop of `read_name`: the name so far, the position, the position after
the name in the original stream once a pointer was followed, and the number of
pointers followed. -/
def readNameLoop (b : List UInt8) : Nat → Str → Nat → Option Nat → Nat → Option (Str × Nat)
  | 0, _, _, _, _ => none
  | fuel + 1, out, off, after, hops =>
    match b[off]? with
    | none => none
    | some len =>
      if len.toNat / 64 = 3 then
        match b[off + 1]? with
        | none => none
        | some lo =>
          let ptr := len.toNat % 64 * 256 + lo.toNat
          if hops + 1 > 16 ∨ ptr ≥ b.length then none
          else readNameLoop b fuel out ptr (after.or (some (off + 2))) (hops + 1)
      else if len = 0 then some (out, after.getD (off + 1))
      else if off + 1 + len.toNat > b.length then none
      else
        let out := if out.isEmpty then out else out ++ ['.']
        readNameLoop b fuel (out ++ utf8Lossy ((b.drop (off + 1)).take len.toNat))
          (off + 1 + len.toNat) after hops

/-- `read_name`.  Every turn moves on in the message or follows one of at most
sixteen pointers, so the turns given here are enough. -/
def readName (b : List UInt8) (start : Nat) : Option (Str × Nat) :=
  readNameLoop b (17 * (b.length + 2)) [] start none 0

/-- `u16::from_be_bytes` at an offset, as a number. -/
def beAt (b : List UInt8) (off : Nat) : Nat := (beU16 (byteAt b off) (byteAt b (off + 1))).toNat

/-- Skip further questions. -/
def skipQuestions (b : List UInt8) : Nat → Nat → Option Nat
  | 0, off => some off
  | n + 1, off =>
    match readName b off with
    | some (_, next) => skipQuestions b n (next + 4)
    | none => none

/-- The address an answer record holds, if it is an A or AAAA record. -/
def recordAddr (b : List UInt8) (rtype rdlen off : Nat) : Option IpAddr :=
  if rtype = 1 ∧ rdlen = 4 then
    some (.v4 ⟨byteAt b off, byteAt b (off + 1), byteAt b (off + 2), byteAt b (off + 3)⟩)
  else if rtype = 28 ∧ rdlen = 16 then (ipv6At b off).map .v6
  else none

/-- The addresses of the answer records; a truncated record ends the list. -/
def readAnswers (b : List UInt8) : Nat → Nat → Option (List IpAddr)
  | 0, _ => some []
  | n + 1, off =>
    match readName b off with
    | none => none
    | some (_, off) =>
      if off + 10 > b.length then some []
      else
        let rtype := beAt b off
        let rdlen := beAt b (off + 8)
        let off := off + 10
        if off + rdlen > b.length then some []
        else
          (readAnswers b n (off + rdlen)).map fun ips =>
            (recordAddr b rtype rdlen off).toList ++ ips

/-- `parse_response`: the name asked for and the addresses it resolves to. -/
def parseResponse (b : List UInt8) : Option (Str × List IpAddr) :=
  if b.length < 12 then none
  else if beAt b 2 < 0x8000 then none -- a query, not a response
  else
    let qd := beAt b 4
    let an := beAt b 6
    if qd = 0 ∨ an = 0 then none
    else
      match readName b 12 with
      | none => none
      | some (qname, next) =>
        match skipQuestions b (qd - 1) (next + 4) with
        | none => none
        | some off =>
          match readAnswers b an off with
          | some (ip :: ips) => some (qname, ip :: ips)
          | _ => none

/-! ## the cache -/

/-- `DnsCache`: for an address, the name it was resolved from and when. -/
structure DnsCache where
  map : AList fun _ : IpAddr => Str × Nat

namespace DnsCache

def empty : DnsCache := ⟨∅⟩

/-- `name_for`. -/
def nameFor (c : DnsCache) (ip : IpAddr) : Option Str := (c.map.lookup ip).map (·.1)

/-- Milliseconds a name is kept once the cache has grown. -/
def ttl : Nat := 3600000

/-- `retain`: drop the names older than the ttl. -/
def expire (c : DnsCache) (now : Nat) : DnsCache where
  map := ⟨c.map.entries.filter fun e => decide (now - e.2.2 < ttl),
    c.map.nodupKeys.sublist List.filter_sublist⟩

/-- `observe`. -/
def observe (c : DnsCache) (payload : List UInt8) (now : Nat) : DnsCache :=
  let c := match parseResponse payload with
    | some (name, ips) => ⟨ips.foldl (fun m ip => m.insert ip (name, now)) c.map⟩
    | none => c
  if c.map.entries.length > 4096 then c.expire now else c

end DnsCache

end Pfsnitch
