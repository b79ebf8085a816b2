import Pfsnitch.Divert.Walk
import Pfsnitch.Lib.OnesSum

/-!
# Pfsnitch.Resets

The resets that denied TCP segments are answered with.

`csum` is the complement of the ones-complement sum (`csum_spec`), so bytes verify once
their checksum has been put in (`verifies_csum`).  A reset is then a packet like any
other: its lengths, its checksums and what the parser reads back are those of an answer to
the segment (`reset_valid`).
-/

namespace Pfsnitch

open Lib

variable {pkt r : Packet} {h : L3}

/-! ## the checksum -/

theorem toNat_word (hi lo : UInt8) : (beU16 hi lo).toUInt32.toNat = hi.toNat * 256 + lo.toNat := by
  rw [UInt16.toNat_toUInt32, toNat_beU16]

theorem toNat_add_word {sum : UInt32} {hi lo : UInt8}
    (h : sum.toNat + (hi.toNat * 256 + lo.toNat) < UInt32.size) :
    (sum + (beU16 hi lo).toUInt32).toNat = sum.toNat + (hi.toNat * 256 + lo.toNat) := by
  rw [UInt32.toNat_add, toNat_word]
  exact Nat.mod_eq_of_lt h

/-- The sum over one part, with the byte left over before and after it, when all words up to
the end of the data fit into 32 bits together. -/
theorem csumPart_spec {sum : UInt32} {carry : Option UInt8} {part tail : List UInt8}
    (h : sum.toNat + wordSum (carry.toList ++ part ++ tail) < UInt32.size) :
    (csumPart sum carry part).1.toNat + wordSum ((csumPart sum carry part).2.toList ++ tail) =
      sum.toNat + wordSum (carry.toList ++ part ++ tail) := by
  induction sum, carry, part using csumPart.induct with
  | case1 sum hi lo rest ih =>
      simp only [Option.toList_none, Option.toList_some, List.nil_append, List.cons_append,
        wordSum_cons_cons] at h ih ⊢
      have hfits := Nat.lt_of_le_of_lt (Nat.add_le_add_left (Nat.le_add_right _ _) _) h
      rw [toNat_add_word hfits, Nat.add_assoc] at ih
      exact ih h
  | case2 sum hi rest ih => exact ih h
  | case3 sum carry =>
      rw [csumPart]
      · simp

/-- The sum over all parts. -/
theorem csumParts_spec {parts : List (List UInt8)} {x : UInt32 × Option UInt8}
    (h : x.1.toNat + wordSum (x.2.toList ++ parts.flatten) < UInt32.size) :
    (parts.foldl (fun (s, c) part => csumPart s c part) x).1.toNat +
        wordSum (parts.foldl (fun (s, c) part => csumPart s c part) x).2.toList =
      x.1.toNat + wordSum (x.2.toList ++ parts.flatten) := by
  induction parts generalizing x with
  | nil => simp
  | cons part parts ih =>
      obtain ⟨sum, carry⟩ := x
      rw [List.flatten_cons, ← List.append_assoc] at h
      have hpart := csumPart_spec h
      rw [List.foldl_cons, List.flatten_cons, ← List.append_assoc, ← hpart]
      exact ih (hpart ▸ h)

/-- The two halves of a 32-bit number. -/
theorem toNat_low (s : UInt32) : (s &&& (0xffff : UInt32)).toNat = s.toNat % 65536 :=
  Nat.and_two_pow_sub_one_eq_mod s.toNat 16

theorem toNat_high (s : UInt32) : (s >>> (16 : UInt32)).toNat = s.toNat / 65536 :=
  Nat.shiftRight_eq_div_pow s.toNat 16

/-- One turn of the fold. -/
theorem toNat_foldStep (s : UInt32) :
    ((s &&& (0xffff : UInt32)) + (s >>> (16 : UInt32))).toNat =
      s.toNat % 65536 + s.toNat / 65536 := by
  have hs := s.toNat_lt
  rw [UInt32.toNat_add, toNat_low, toNat_high]
  omega

theorem shift_eq_zero_iff (s : UInt32) : s >>> (16 : UInt32) = 0 ↔ s.toNat < 65536 := by
  rw [← UInt32.toNat_inj, toNat_high]
  simp

theorem csumFold_succ (n : Nat) (s : UInt32) : csumFold (n + 1) s =
    if s.toNat < 65536 then s
    else csumFold n ((s &&& (0xffff : UInt32)) + (s >>> (16 : UInt32))) := by
  rw [csumFold, ite_not]
  simp only [shift_eq_zero_iff]

/-- Three turns leave no carry, keep the remainder, and leave zero only of zero. -/
theorem csumFold_spec (s : UInt32) : (csumFold 3 s).toNat < 65536 ∧
    (csumFold 3 s).toNat % 65535 = s.toNat % 65535 ∧
      ((csumFold 3 s).toNat = 0 ↔ s.toNat = 0) := by
  have hs := s.toNat_lt
  have h1 := toNat_foldStep s
  rw [csumFold_succ 2 s]
  generalize (s &&& (0xffff : UInt32)) + (s >>> (16 : UInt32)) = t at h1
  have h2 := toNat_foldStep t
  rw [csumFold_succ 1 t]
  generalize (t &&& (0xffff : UInt32)) + (t >>> (16 : UInt32)) = u at h2
  rw [csumFold_succ 0 u]
  split
  · exact ⟨by assumption, rfl, Iff.rfl⟩
  · split
    · exact ⟨by assumption, by omega, by omega⟩
    · -- two folds are enough
      rw [if_pos (by omega)]
      exact ⟨by omega, by omega, by omega⟩

/-- All words fit into 32 bits together. -/
theorem wordSum_lt {bytes : List UInt8} (h : bytes.length ≤ 131074) :
    wordSum bytes < UInt32.size := by
  have hle := wordSum_le bytes
  change wordSum bytes < 4294967296
  omega

/-- What is added up when nothing has been added yet. -/
theorem wordSum_start (bytes : List UInt8) :
    (0 : UInt32).toNat + wordSum ((none : Option UInt8).toList ++ bytes) = wordSum bytes :=
  Nat.zero_add _

/-- The checksum is the complement of the folded sum. -/
theorem csum_spec {parts : List (List UInt8)} (hlen : parts.flatten.length ≤ 131074) :
    ∃ f, f < 65536 ∧ f % 65535 = wordSum parts.flatten % 65535 ∧
      (f = 0 ↔ wordSum parts.flatten = 0) ∧ (csum parts).toNat = 65535 - f := by
  have hlt := wordSum_lt hlen
  have hstart := wordSum_start parts.flatten
  have hsum := (csumParts_spec (x := (0, none)) (hstart.trans_lt hlt)).trans hstart
  rw [csum]
  generalize parts.foldl (fun (s, c) part => csumPart s c part) (0, none) = x at hsum
  obtain ⟨sum, carry⟩ := x
  have hfold (total : UInt32) (htotal : total.toNat = wordSum parts.flatten) : ∃ f, f < 65536 ∧
      f % 65535 = wordSum parts.flatten % 65535 ∧ (f = 0 ↔ wordSum parts.flatten = 0) ∧
        (~~~ (csumFold 3 total).toUInt16).toNat = 65535 - f := by
    obtain ⟨hlt, hmod, hzero⟩ := csumFold_spec total
    rw [htotal] at hmod hzero
    refine ⟨_, hlt, hmod, hzero, ?_⟩
    rw [UInt16.toNat_not, UInt32.toNat_toUInt16, Nat.mod_eq_of_lt hlt]
    rfl
  cases carry with
  | none => exact hfold sum hsum
  | some hi =>
      rw [Option.toList_some, wordSum_singleton] at hsum
      refine hfold (sum + (beU16 hi 0).toUInt32) ?_
      have hword : sum.toNat + (hi.toNat * 256 + (0 : UInt8).toNat) = wordSum parts.flatten := by
        rw [UInt8.toNat_zero, Nat.add_zero, hsum]
      rw [← hword] at hlt
      rw [toNat_add_word hlt, hword]

theorem wordSum_be16 {n : Nat} (hn : n < 65536) (rest : List UInt8) :
    wordSum (be16 n ++ rest) = n + wordSum rest := by
  rw [be16, List.cons_append, List.cons_append, List.nil_append, wordSum_cons_cons, toNat_be16 hn]

/-- Bytes verify with their own checksum in the place that was zero; if all of them are
zero, the checksum is not. -/
theorem verifies_csum {parts : List (List UInt8)} {pre post : List UInt8}
    (hparts : parts.flatten = pre ++ (be16 0 ++ post)) (heven : pre.length % 2 = 0)
    (hlen : parts.flatten.length ≤ 131074) :
    Verifies (pre ++ (be16 (csum parts).toNat ++ post)) := by
  obtain ⟨f, hf, hmod, hzero, hcsum⟩ := csum_spec hlen
  have hck := (csum parts).toNat_lt
  rw [hparts, wordSum_append heven, wordSum_be16 (by omega)] at hmod hzero
  rw [verifies_iff, wordSum_append heven, wordSum_be16 (by omega), hcsum]
  omega

/-- A reset verifies over any pseudo-header. -/
theorem verifies_rstHeader {pseudo : List UInt8} (heven : pseudo.length % 2 = 0)
    (hlen : pseudo.length ≤ 40) (dport sport : UInt16) (ack : UInt32) :
    Verifies (pseudo ++ rstHeader dport sport ack (csum [pseudo, rstHeader dport sport ack 0])) := by
  let before := be16 dport.toNat ++ be16 sport.toNat ++ be32 0 ++ be32 ack ++ [0x50, 0x14] ++ be16 0
  have hsplit (ck : UInt16) : pseudo ++ rstHeader dport sport ack ck =
      (pseudo ++ before) ++ (be16 ck.toNat ++ be16 0) := by
    rw [List.append_assoc]
    rfl
  have hbefore : (pseudo ++ before).length % 2 = 0 := by
    rw [List.length_append]
    change (pseudo.length + 16) % 2 = 0
    omega
  have hparts : [pseudo, rstHeader dport sport ack 0].flatten =
      (pseudo ++ before) ++ (be16 0 ++ be16 0) := by
    rw [List.flatten_cons, List.flatten_cons, List.flatten_nil, List.append_nil]
    exact hsplit 0
  rw [hsplit]
  refine verifies_csum hparts hbefore ?_
  rw [hparts]
  simp only [List.length_append]
  change pseudo.length + 16 + 4 ≤ 131074
  omega

/-! ## packets that answer -/

/-- The 16-bit and 32-bit numbers in a packet. -/
def u16At (pkt : Packet) (i : Nat) : Nat := (byteAt pkt i).toNat * 256 + (byteAt pkt (i + 1)).toNat

def u32At (pkt : Packet) (i : Nat) : Nat := u16At pkt i * 65536 + u16At pkt (i + 2)

/-- The pseudo-headers of the two families: the addresses, the protocol and the length of
the segment. -/
def pseudo4 (pkt : Packet) : List UInt8 :=
  (pkt.drop 12).take 8 ++ [0, byteAt pkt 9] ++ be16 (pkt.length - 20)

def pseudo6 (pkt : Packet) : List UInt8 :=
  (pkt.drop 8).take 32 ++ be32 (UInt32.ofNat (pkt.length - 40)) ++ [0, 0, 0, byteAt pkt 6]

/-- `Framed pkt l4`: a packet of one family without options or extension headers, with the
lengths it has and checksums that verify, and with TCP at `l4`. -/
inductive Framed (pkt : Packet) : Nat → Prop
  | v4 (hver : byteAt pkt 0 = 0x45) (hlen : u16At pkt 2 = pkt.length) (hproto : byteAt pkt 9 = 6)
      (hip : Verifies (pkt.take 20)) (htcp : Verifies (pseudo4 pkt ++ pkt.drop 20)) : Framed pkt 20
  | v6 (hver : (byteAt pkt 0).toNat / 16 = 6) (hlen : 40 + u16At pkt 4 = pkt.length)
      (hnext : byteAt pkt 6 = 6) (htcp : Verifies (pseudo6 pkt ++ pkt.drop 40)) : Framed pkt 40

/-- A valid reset for a flow, with TCP at `l4`: what it says, and that it is not answered. -/
structure ValidReset (f : Flow) (r : Packet) (l4 : Nat) : Prop where
  framed : Framed r l4
  parsed : ∃ synOnly, parse r = some ⟨f.proto, f.dst, f.src, f.dport, f.sport, synOnly⟩
  flags : byteAt r (l4 + 13) &&& 0x14 = 0x14
  last : tcpRst r = none

/-- What can be read of a reset behind its header. -/
theorem rst_read {hdr : List UInt8} {dport sport : UInt16} {ack : UInt32} {ck : UInt16}
    (hl3 : l3 (hdr ++ rstHeader dport sport ack ck) = some h) (hproto : h.proto = 6)
    (hl4 : h.l4 = hdr.length) :
    (∃ synOnly, parse (hdr ++ rstHeader dport sport ack ck) =
      some ⟨6, h.src, h.dst, dport, sport, synOnly⟩) ∧
    byteAt (hdr ++ rstHeader dport sport ack ck) (hdr.length + 13) &&& 0x14 = 0x14 ∧
    u32At (hdr ++ rstHeader dport sport ack ck) (hdr.length + 8) = ack.toNat ∧
    tcpRst (hdr ++ rstHeader dport sport ack ck) = none := by
  have hlen : (hdr ++ rstHeader dport sport ack ck).length = hdr.length + 20 := by
    rw [List.length_append]
    rfl
  have hbyte := byteAt_append hdr (rstHeader dport sport ack ck)
  have h0 := hbyte 0
  rw [Nat.add_zero] at h0
  have hdport : beU16 (byteAt (rstHeader dport sport ack ck) 0)
    (byteAt (rstHeader dport sport ack ck) 1) = dport := beU16_be16 dport
  have hsport : beU16 (byteAt (rstHeader dport sport ack ck) 2)
    (byteAt (rstHeader dport sport ack ck) 3) = sport := beU16_be16 sport
  have hflags : byteAt (rstHeader dport sport ack ck) 13 = 0x14 := rfl
  have hack : u32At (rstHeader dport sport ack ck) 8 = ack.toNat := by
    have hlt := ack.toNat_lt
    have hhi : u16At (rstHeader dport sport ack ck) 8 = ack.toNat / 65536 :=
      toNat_be16 (by omega)
    have hlo : u16At (rstHeader dport sport ack ck) 10 = ack.toNat % 65536 :=
      toNat_be16 (by omega)
    rw [u32At, hhi, hlo]
    omega
  refine ⟨?_, ?_, ?_, ?_⟩
  · rw [parse, hl3]
    dsimp only
    rw [if_neg (by omega), hl4, h0, hbyte 1, hbyte 2, hbyte 3, hproto, hdport, hsport]
    exact ⟨_, rfl⟩
  · rw [hbyte 13, hflags]
    decide
  · rw [u32At, u16At, u16At]
    simp only [Nat.add_assoc, hbyte]
    exact hack
  · rw [tcpRst, hl3]
    dsimp only
    rw [hl4, hbyte 13, hflags]
    split
    · rfl
    · exact if_pos (by decide)

/-! ## resets over IPv4 -/

/-- The header of a reset from `d` to `s`. -/
def rstIpv4 (d s : Ipv4Addr) (hc : UInt16) : List UInt8 :=
  [0x45, 0] ++ be16 40 ++ be16 0 ++ be16 0 ++ [64, 6] ++ be16 hc.toNat ++ d.octets ++ s.octets

section

variable (dport sport : UInt16) (ack : UInt32) (ck hc : UInt16)

theorem l3_rstIpv4 (d s : Ipv4Addr) : l3 (rstIpv4 d s hc ++ rstHeader dport sport ack ck) =
    some ⟨6, .v4 d, .v4 s, 20⟩ := by
  simp [l3, rstIpv4, rstHeader, be16, be32, byteAt, Ipv4Addr.octets]

theorem framed_rstIpv4 (d s : Ipv4Addr) :
    Framed (rstIpv4 d s (csum [rstIpv4 d s 0]) ++ rstHeader dport sport ack
      (csum [d.octets ++ s.octets ++ [0, 6, 0, 20], rstHeader dport sport ack 0])) 20 := by
  have hlen (hc ck : UInt16) : (rstIpv4 d s hc ++ rstHeader dport sport ack ck).length = 40 := by
    simp [rstIpv4, rstHeader, be16, be32, Ipv4Addr.octets]
  have hpseudo (hc ck : UInt16) : pseudo4 (rstIpv4 d s hc ++ rstHeader dport sport ack ck) =
      d.octets ++ s.octets ++ [0, 6, 0, 20] := by
    rw [pseudo4, hlen, show be16 (40 - 20) = [0, 20] by decide]
    rfl
  refine .v4 rfl ?_ rfl ?_ ?_
  · rw [hlen]
    exact toNat_be16 (n := 40) (by omega)
  · have hsplit (hc : UInt16) : rstIpv4 d s hc = ([0x45, 0] ++ be16 40 ++ be16 0 ++ be16 0 ++
        [64, 6]) ++ (be16 hc.toNat ++ (d.octets ++ s.octets)) := by simp [rstIpv4]
    have hparts : [rstIpv4 d s 0].flatten = ([0x45, 0] ++ be16 40 ++ be16 0 ++ be16 0 ++
        [64, 6]) ++ (be16 0 ++ (d.octets ++ s.octets)) := by
      rw [List.flatten_singleton]
      exact hsplit 0
    rw [List.take_left' (by simp [rstIpv4, be16, Ipv4Addr.octets]), hsplit]
    exact verifies_csum hparts rfl (by simp [rstIpv4, be16, Ipv4Addr.octets])
  · rw [hpseudo]
    exact verifies_rstHeader (by simp [Ipv4Addr.octets]) (by simp [Ipv4Addr.octets]) dport sport ack

/-! ## resets over IPv6 -/

/-- The header of a reset from `d` to `s`. -/
def rstIpv6 (d s : Ipv6Addr) : List UInt8 :=
  [0x60, 0, 0, 0] ++ be16 20 ++ [6, 64] ++ d.octets ++ s.octets

@[simp] theorem length_rstIpv6 (d s : Ipv6Addr) : (rstIpv6 d s).length = 40 := by
  simp [rstIpv6, be16, d.size, s.size]

/-- The addresses of a packet behind this header. -/
theorem addrs_rstIpv6 (d s : Ipv6Addr) (tcp : List UInt8) :
    (rstIpv6 d s ++ tcp).drop 8 = d.octets ++ (s.octets ++ tcp) ∧
      (rstIpv6 d s ++ tcp).drop 24 = s.octets ++ tcp := by
  have h8 : (rstIpv6 d s ++ tcp).drop 8 = d.octets ++ (s.octets ++ tcp) := by
    simp [rstIpv6, be16]
  refine ⟨h8, ?_⟩
  rw [show 24 = 8 + 16 from rfl, ← List.drop_drop, h8, ← d.size, List.drop_left]

theorem l3_rstIpv6 (d s : Ipv6Addr) : l3 (rstIpv6 d s ++ rstHeader dport sport ack ck) =
    some ⟨6, .v6 d, .v6 s, 40⟩ := by
  obtain ⟨h8, h24⟩ := addrs_rstIpv6 d s (rstHeader dport sport ack ck)
  have hlen : ¬ (rstIpv6 d s ++ rstHeader dport sport ack ck).length < 40 := by simp
  have hd : ((rstIpv6 d s ++ rstHeader dport sport ack ck).drop 8).take 16 = d.octets := by
    rw [h8, ← d.size, List.take_left]
  have hs : ((rstIpv6 d s ++ rstHeader dport sport ack ck).drop 24).take 16 = s.octets := by
    rw [h24, ← s.size, List.take_left]
  have hskip : skipExt (rstIpv6 d s ++ rstHeader dport sport ack ck)
      (byteAt (rstIpv6 d s ++ rstHeader dport sport ack ck) 6) 40 = some (6, 40) := rfl
  rw [l3, ipv6At_eq hd, ipv6At_eq hs, hskip, if_neg hlen]
  rfl

theorem framed_rstIpv6 (d s : Ipv6Addr) :
    Framed (rstIpv6 d s ++ rstHeader dport sport ack
      (csum [d.octets ++ s.octets ++ be32 20 ++ [0, 0, 0, 6], rstHeader dport sport ack 0])) 40 := by
  have hlen (ck : UInt16) : (rstIpv6 d s ++ rstHeader dport sport ack ck).length = 60 := by
    rw [List.length_append, length_rstIpv6]
    rfl
  have hpseudo (ck : UInt16) : pseudo6 (rstIpv6 d s ++ rstHeader dport sport ack ck) =
      d.octets ++ s.octets ++ be32 20 ++ [0, 0, 0, 6] := by
    have haddrs : ((rstIpv6 d s ++ rstHeader dport sport ack ck).drop 8).take 32 =
        d.octets ++ s.octets := by
      rw [(addrs_rstIpv6 d s _).1, ← List.append_assoc, List.take_left' (by simp [d.size, s.size])]
    rw [pseudo6, hlen, haddrs]
    rfl
  refine .v6 ?_ ?_ rfl ?_
  · change (0x60 : UInt8).toNat / 16 = 6
    decide
  · rw [hlen]
    exact congrArg (40 + ·) (toNat_be16 (n := 20) (by omega))
  · rw [hpseudo, List.drop_left' (length_rstIpv6 d s)]
    exact verifies_rstHeader (by simp [d.size, s.size, be32, be16])
      (by simp [d.size, s.size, be32, be16]) dport sport ack

end

/-! ## the answer -/

/-- Both addresses are of one family. -/
theorem l3_families (hl3 : l3 pkt = some h) :
    (∃ s d, h.src = .v4 s ∧ h.dst = .v4 d) ∨ ∃ s d, h.src = .v6 s ∧ h.dst = .v6 d := by
  unfold l3 at hl3
  split at hl3
  · cases hl3
  · split at hl3
    · dsimp only at hl3
      split_ifs at hl3
      cases hl3
      exact .inl ⟨_, _, rfl, rfl⟩
    · split_ifs at hl3
      split at hl3
      · cases hl3
        exact .inr ⟨_, _, rfl, rfl⟩
      · cases hl3

/-- The ports and the acknowledgement that a segment is answered with. -/
def sportOf (pkt : Packet) (h : L3) : UInt16 := beU16 (byteAt pkt h.l4) (byteAt pkt (h.l4 + 1))

def dportOf (pkt : Packet) (h : L3) : UInt16 :=
  beU16 (byteAt pkt (h.l4 + 2)) (byteAt pkt (h.l4 + 3))

def ackOf (pkt : Packet) (h : L3) : UInt32 :=
  UInt32.ofNat ((beU16 (byteAt pkt (h.l4 + 4)) (byteAt pkt (h.l4 + 5))).toNat * 65536 +
    (beU16 (byteAt pkt (h.l4 + 6)) (byteAt pkt (h.l4 + 7))).toNat) +
      if byteAt pkt (h.l4 + 13) &&& 0x02 ≠ 0 then 1 else 0

theorem toNat_ackOf (hsyn : byteAt pkt (h.l4 + 13) &&& 0x02 ≠ 0) :
    (ackOf pkt h).toNat = (u32At pkt (h.l4 + 4) + 1) % 2 ^ 32 := by
  rw [ackOf, if_pos hsyn, UInt32.toNat_add, UInt32.toNat_ofNat', toNat_beU16, toNat_beU16]
  simp only [u32At, u16At, Nat.add_assoc, Nat.reduceAdd, UInt32.toNat_one]
  omega

/-- What answers a complete segment that is no reset. -/
theorem tcpRst_eq (hl3 : l3 pkt = some h) (hproto : h.proto = 6) (hlen : h.l4 + 20 ≤ pkt.length)
    (hrst : byteAt pkt (h.l4 + 13) &&& 0x04 = 0) :
    ∃ hdr ck, tcpRst pkt = some (hdr ++ rstHeader (dportOf pkt h) (sportOf pkt h) (ackOf pkt h) ck) ∧
      l3 (hdr ++ rstHeader (dportOf pkt h) (sportOf pkt h) (ackOf pkt h) ck) =
        some ⟨6, h.dst, h.src, hdr.length⟩ ∧
      Framed (hdr ++ rstHeader (dportOf pkt h) (sportOf pkt h) (ackOf pkt h) ck) hdr.length := by
  have hcond : ¬ (h.proto ≠ 6 ∨ pkt.length < h.l4 + 20) := by
    rw [not_or, not_not]
    exact ⟨hproto, by omega⟩
  obtain ⟨s, d, hs, hd⟩ | ⟨s, d, hs, hd⟩ := l3_families hl3
  · refine ⟨rstIpv4 d s (csum [rstIpv4 d s 0]),
      csum [d.octets ++ s.octets ++ [0, 6, 0, 20], rstHeader (dportOf pkt h) (sportOf pkt h)
        (ackOf pkt h) 0], ?_, ?_, framed_rstIpv4 _ _ _ d s⟩
    · rw [tcpRst, hl3]
      dsimp only
      rw [if_neg hcond, if_neg (not_not.mpr hrst), hs, hd]
      rfl
    · rw [hs, hd, l3_rstIpv4]
      rfl
  · refine ⟨rstIpv6 d s, csum [d.octets ++ s.octets ++ be32 20 ++ [0, 0, 0, 6],
      rstHeader (dportOf pkt h) (sportOf pkt h) (ackOf pkt h) 0], ?_, ?_, ?_⟩
    · rw [tcpRst, hl3]
      dsimp only
      rw [if_neg hcond, if_neg (not_not.mpr hrst), hs, hd]
      rfl
    · rw [hs, hd, l3_rstIpv6, length_rstIpv6]
    · rw [length_rstIpv6]
      exact framed_rstIpv6 _ _ _ d s

/-- **A synthesised reset is a valid reset.** -/
theorem reset_valid (hl3 : l3 pkt = some h) (hproto : h.proto = 6)
    (hlen : h.l4 + 20 ≤ pkt.length) (hrst : byteAt pkt (h.l4 + 13) &&& 0x04 = 0) :
    ∃ f r l4, parse pkt = some f ∧ tcpRst pkt = some r ∧ ValidReset f r l4 ∧
      (byteAt pkt (h.l4 + 13) &&& 0x02 ≠ 0 →
        u32At r (l4 + 8) = (u32At pkt (h.l4 + 4) + 1) % 2 ^ 32) := by
  have hparse : ∃ synOnly, parse pkt =
      some ⟨6, h.src, h.dst, sportOf pkt h, dportOf pkt h, synOnly⟩ := by
    rw [parse, hl3]
    dsimp only
    rw [if_neg (by omega), hproto]
    exact ⟨_, rfl⟩
  obtain ⟨synOnly, hparse⟩ := hparse
  obtain ⟨hdr, ck, hr, hl3r, hframed⟩ := tcpRst_eq hl3 hproto hlen hrst
  obtain ⟨hparsed, hflags, hack, hlast⟩ := rst_read hl3r rfl rfl
  refine ⟨_, _, hdr.length, hparse, hr, ⟨hframed, hparsed, hflags, hlast⟩, fun hsyn => ?_⟩
  rw [hack, toNat_ackOf hsyn]

/-- A SYN from 10.0.0.2 to 1.1.1.1. -/
def syn4 : Packet :=
  [0x45, 0, 0, 40, 0, 0, 0, 0, 64, 6, 0, 0, 10, 0, 0, 2, 1, 1, 1, 1] ++
    [0x30, 0x39, 0x01, 0xbb, 0xff, 0xff, 0xff, 0xff, 0, 0, 0, 0, 0x50, 0x02, 0, 0, 0, 0, 0, 0]

/-- The acknowledgement of the last sequence number is zero. -/
theorem reset_valid_syn4 : ∃ f r l4, parse syn4 = some f ∧ tcpRst syn4 = some r ∧
    ValidReset f r l4 ∧ u32At r (l4 + 8) = 0 := by
  have hl3 : l3 syn4 = some ⟨6, .v4 ⟨10, 0, 0, 2⟩, .v4 ⟨1, 1, 1, 1⟩, 20⟩ := by decide
  obtain ⟨f, r, l4, hparse, hr, hvalid, hack⟩ :=
    reset_valid hl3 rfl (by decide) (by decide)
  exact ⟨f, r, l4, hparse, hr, hvalid, (hack (by decide)).trans (by decide)⟩

end Pfsnitch
