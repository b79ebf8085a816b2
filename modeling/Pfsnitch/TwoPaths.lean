import Pfsnitch.FastPath

/-!
# Pfsnitch.TwoPaths

The two ways a UDP send reaches the policy: as a miss that the hook reports, and
as the packet that pf diverts.

The hook reports the address the caller wrote, the packet carries the address
the kernel sent to; a send to `::ffff:a.b.c.d` leaves as IPv4, so the two differ
there (`paths_agree_iff`), and a deny on the IPv4 address does not bind the miss
(`mapped_send_escapes_deny`).
-/

namespace Pfsnitch

open Lib

/-! ## a send and what becomes of it -/

/-- A UDP send: the path in the socket's label, the socket's port, and the
destination the caller wrote. -/
structure Send where
  path : List UInt8
  sport : UInt16
  dst : IpAddr
  dport : UInt16
deriving DecidableEq

/-- The address a send goes out to: to an IPv4-mapped one as IPv4. -/
def onWire : IpAddr → IpAddr
  | .v4 a => .v4 a
  | .v6 a => ((toIpv4Mapped a).map IpAddr.v4).getD (.v6 a)

/-- Is the address an IPv4-mapped one? -/
def Mapped : IpAddr → Prop
  | .v4 _ => False
  | .v6 a => (toIpv4Mapped a).isSome

instance (addr : IpAddr) : Decidable (Mapped addr) := by
  cases addr <;> unfold Mapped <;> infer_instance

theorem onWire_eq_self_iff {addr : IpAddr} : onWire addr = addr ↔ ¬ Mapped addr := by
  cases addr with
  | v4 a => simp [onWire, Mapped]
  | v6 a => cases h : toIpv4Mapped a <;> simp [onWire, Mapped, h]

/-- The key the hook asks the daemon about. -/
def Send.key (s : Send) : VKey := ⟨IPPROTO_UDP, s.dst, s.dport, s.path⟩

/-- The hook asks about the send: it is neither to loopback nor DNS, and the
socket has a path. -/
structure Send.Asks (s : Send) : Prop where
  away : hookLoopback s.dst = false
  notDns : s.dport ≠ 53
  named : s.path ≠ []

/-- A flow that the packet of the send is parsed to. -/
structure Send.Diverts (s : Send) (f : Flow) : Prop where
  proto : f.proto = 17
  sport : f.sport = s.sport
  dst : f.dst = onWire s.dst
  dport : f.dport = s.dport

/-! ## a packet for every send -/

/-- The UDP packet, without data, to an address and a port. -/
def udpPacket (dst : IpAddr) (sport dport : UInt16) : Packet :=
  let udp := be16 sport.toNat ++ be16 dport.toNat ++ [0, 8, 0, 0]
  match dst with
  | .v4 a => [0x45, 0, 0, 28, 0, 0, 0, 0, 64, 17, 0, 0, 10, 0, 0, 1] ++ a.octets ++ udp
  | .v6 a => [0x60, 0, 0, 0, 0, 8, 17, 64] ++ List.replicate 16 0 ++ a.octets ++ udp

theorem parse_udpPacket_v6 (sport dport : UInt16) :
    ∀ (octets : List UInt8) (hsize : octets.length = 16),
      parse (udpPacket (.v6 ⟨octets, hsize⟩) sport dport) =
        some ⟨17, .v6 ⟨List.replicate 16 0, rfl⟩, .v6 ⟨octets, hsize⟩, sport, dport, false⟩
  | [_, _, _, _, _, _, _, _, _, _, _, _, _, _, _, _], _ => by
      simp [udpPacket, parse, l3, byteAt, be16, ipv6At, skipExt, skipExtLoop, extStep]
      exact ⟨beU16_be16 sport, beU16_be16 dport⟩

/-- The packet is read as what it says. -/
theorem parse_udpPacket (dst : IpAddr) (sport dport : UInt16) :
    ∃ f, parse (udpPacket dst sport dport) = some f ∧ f.proto = 17 ∧ f.sport = sport ∧
      f.dst = dst ∧ f.dport = dport := by
  cases dst with
  | v4 a =>
      refine ⟨⟨17, .v4 ⟨10, 0, 0, 1⟩, .v4 a, sport, dport, false⟩, ?_, rfl, rfl, rfl, rfl⟩
      simp [udpPacket, parse, l3, byteAt, be16, Ipv4Addr.octets]
      exact ⟨beU16_be16 sport, beU16_be16 dport⟩
  | v6 a => exact ⟨_, parse_udpPacket_v6 sport dport a.octets a.size, rfl, rfl, rfl, rfl⟩

/-! ## the two verdicts -/

variable [Casing]

/-- The verdict the drain gives a miss. -/
def upcallVerdict (os : Os) (d : Daemon) (ev : KernEvent) : Verdict :=
  if ev.path = [] then .allow else eventVerdict os d ev

/-- Whatever the policy, the names and the rest of the daemon's state: a miss of
the send and a packet of it that is not settled get the same verdict, if the
owner is the binary in the label and has not changed. -/
def Send.PathsAgree (s : Send) : Prop :=
  ∀ (inp : Input) (os : Os) (d : Daemon) (pkt : Packet) (src : Sockaddr) (f : Flow) (r : Req),
    parse pkt = some f → s.Diverts f → src.addr = 0 → r.key = s.key →
    flowExe os.env f.key = some (utf8Lossy s.path) →
    idChanged d.pol os.env (utf8Lossy s.path) = false → d.decided.lookup f.key = none →
    (handlePacket inp os d pkt src).used = some (upcallVerdict os d r.event)

/-- What the packet of a send is judged by, if it is judged: the policy on the
address on the wire. -/
theorem Send.Diverts.used {s : Send} {inp : Input} {os : Os} {d : Daemon} {pkt : Packet}
    {src : Sockaddr} {f : Flow} (h : s.Diverts f) (hparse : parse pkt = some f)
    (hsrc : src.addr = 0) (hlookup : d.decided.lookup f.key = none) :
    (handlePacket inp os d pkt src).used =
      if s.sport = 53 then none
      else some (judge d.pol os.env (flowExe os.env f.key) (onWire s.dst)
        (d.names.nameFor (onWire s.dst)) s.dport) := by
  rw [← h.sport, ← h.dst, ← h.dport]
  unfold handlePacket
  by_cases hsport : f.sport = 53
  · simp [hparse, h.proto, hsport]
  · rw [if_neg hsport]
    simp only [hparse, h.proto, hsport, hsrc, hlookup, and_false, if_false, ne_eq,
      not_true_eq_false, or_true, if_true]
    exact slowPath_used inp os d pkt src f

/-- The miss of a send is judged by the policy on the address the caller wrote. -/
theorem Send.Asks.upcallVerdict {s : Send} (h : s.Asks) {os : Os} {d : Daemon} {r : Req}
    (hkey : r.key = s.key) :
    upcallVerdict os d r.event =
      judge d.pol os.env (some (utf8Lossy s.path)) s.dst (d.names.nameFor s.dst) s.dport := by
  have hpath : r.event.path = utf8Lossy s.path := by rw [Req.event, hkey, Send.key]
  rw [Pfsnitch.upcallVerdict, hpath, if_neg (utf8Lossy_ne_nil h.named), eventVerdict, hpath]
  rw [Req.event, hkey, Send.key]

omit [Casing] in
/-- A machine on which one binary owns every socket. -/
def Os.ownedBy (path : Str) : Os :=
  { World.idle.os with env := ⟨fun _ => some ⟨7, [], path, []⟩, fun _ => none⟩ }

/-- **The two paths agree** on a send, whatever the policy and the names, exactly
when its destination is not an IPv4-mapped address and it does not come from
port 53. -/
theorem paths_agree_iff (s : Send) (hasks : s.Asks) :
    s.PathsAgree ↔ ¬ Mapped s.dst ∧ s.sport ≠ 53 := by
  constructor
  · intro h
    obtain ⟨f, hparse, hproto, hsport, hdst, hdport⟩ :=
      parse_udpPacket (onWire s.dst) s.sport s.dport
    have hdiverts : s.Diverts f := ⟨hproto, hsport, hdst, hdport⟩
    -- with nothing settled and nothing named, only the addresses tell the two apart
    have hsame : ∀ pol : Policy, (if s.sport = 53 then none
        else some (pol.decide (some (utf8Lossy s.path)) (onWire s.dst) none s.dport)) =
        some (pol.decide (some (utf8Lossy s.path)) s.dst none s.dport) := by
      intro pol
      have hagree := h {} (Os.ownedBy (utf8Lossy s.path)) { Daemon.new .enforcement 0 with pol } _
        ⟨0, 0⟩ f ⟨0, s.key, false, false, 0, 0, 0⟩ hparse hdiverts rfl rfl rfl
        (by simp [idChanged, Os.ownedBy]) (by simp [Daemon.new])
      rw [hdiverts.used hparse rfl (by simp [Daemon.new]), hasks.upcallVerdict rfl] at hagree
      simpa [judge, flowExe, Os.ownedBy, idChanged, Daemon.new, DnsCache.nameFor,
        DnsCache.empty] using hagree
    refine ⟨fun hmapped => ?_, fun hsport => by simpa [hsport] using hsame .initial⟩
    have hdiffer : s.dst ≠ onWire s.dst := fun heq => onWire_eq_self_iff.mp heq.symm hmapped
    have hdeny := hsame { default := some .allow, denyDest := {(onWire s.dst, none)} }
    split at hdeny
    · cases hdeny
    · simp [Policy.decide, destMatches, scopedDestHit, portOk, Ne.symm hdiffer] at hdeny
  · rintro ⟨hmapped, hsport⟩ inp os d pkt src f r hparse hdiverts hsrc hkey howner hid hlookup
    rw [hdiverts.used hparse hsrc hlookup, if_neg hsport, hasks.upcallVerdict hkey,
      onWire_eq_self_iff.mpr hmapped, howner]

omit [Casing] in
/-- A send of `/a` to an address. -/
def sendTo (dst : IpAddr) : Send := ⟨[0x2f, 0x61], 1024, dst, 443⟩

omit [Casing] in
/-- A send to an ordinary address. -/
theorem paths_agree_ordinary :
    letI := asciiCasing
    (sendTo (.v4 ⟨192, 0, 2, 1⟩)).PathsAgree := by
  let _ := asciiCasing
  exact (paths_agree_iff (sendTo (.v4 ⟨192, 0, 2, 1⟩)) ⟨by decide, by decide, by decide⟩).mpr
    ⟨by decide, by decide⟩

omit [Casing] in
/-- ::ffff:192.0.2.1. -/
def mappedAddr : IpAddr :=
  .v6 ⟨[0, 0, 0, 0, 0, 0, 0, 0, 0, 0, 0xff, 0xff, 192, 0, 2, 1], rfl⟩

/-- A daemon whose policy denies 192.0.2.1 and allows everything else. -/
def Daemon.denying : Daemon :=
  { Daemon.new .enforcement 0 with
    pol := .load (some "default allow\ndeny-dest 192.0.2.1\n".toList) }

omit [Casing] in
/-- A deny on an IPv4 address stops the packet of a send to its mapped form, and
the miss of the same send is allowed. -/
theorem mapped_send_escapes_deny :
    letI := asciiCasing
    ¬ ∀ s : Send, s.Asks → s.PathsAgree := by
  let _ := asciiCasing
  intro h
  obtain ⟨f, hparse, hdiverts⟩ : ∃ f, parse (udpPacket (.v4 ⟨192, 0, 2, 1⟩) 1024 443) = some f ∧
      (sendTo mappedAddr).Diverts f := by
    obtain ⟨f, hparse, hproto, hsport, hdst, hdport⟩ :=
      parse_udpPacket (.v4 ⟨192, 0, 2, 1⟩) 1024 443
    exact ⟨f, hparse, hproto, hsport, hdst, hdport⟩
  have hagree := h (sendTo mappedAddr) ⟨by decide, by decide, by decide⟩ {}
    (Os.ownedBy "/a".toList) Daemon.denying _ ⟨0, 0⟩ f
    ⟨1, (sendTo mappedAddr).key, false, true, 7, 0, 0⟩ hparse hdiverts rfl rfl rfl rfl rfl
  have hpacket : (handlePacket {} (Os.ownedBy "/a".toList) Daemon.denying
      (udpPacket (.v4 ⟨192, 0, 2, 1⟩) 1024 443) ⟨0, 0⟩).used = some .deny := by decide
  have hmiss : upcallVerdict (Os.ownedBy "/a".toList) Daemon.denying
      (⟨1, (sendTo mappedAddr).key, false, true, 7, 0, 0⟩ : Req).event = .allow := by decide
  rw [hpacket, hmiss] at hagree
  cases hagree

end Pfsnitch
