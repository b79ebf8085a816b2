import Pfsnitch.Divert.Packet
import Mathlib.Tactic.SplitIfs

/-!
# Pfsnitch.Divert.Walk

Where the header chain of a packet really leads.

`LeadsTo pkt n proto l4` follows the IPv4 header, or the IPv6 header and all
its extension headers, `n` of them, to the upper-layer header.  The parser's
walk agrees with it on chains of at most seven extension headers and refuses
every longer one (`l3_of_leadsTo`).
-/

namespace Pfsnitch

open Lib

/-! ## the reference walk -/

/-- `ExtHeader pkt off nh len`: an extension header of type `nh` at `off` is
`len` bytes long.  A fragment header counts only in the first fragment: no
other fragment carries an upper-layer header. -/
inductive ExtHeader (pkt : Packet) (off : Nat) : UInt8 → Nat → Prop
  | options {nh b : UInt8} (hnh : nh = 0 ∨ nh = 43 ∨ nh = 60) (hb : pkt[off + 1]? = some b) :
      ExtHeader pkt off nh ((b.toNat + 1) * 8)
  | fragment {hi lo : UInt8} (hhi : pkt[off + 2]? = some hi) (hlo : pkt[off + 3]? = some lo)
      (first : (hi.toNat * 256 + lo.toNat) / 8 = 0) : ExtHeader pkt off 44 8
  | auth {b : UInt8} (hb : pkt[off + 1]? = some b) : ExtHeader pkt off 51 ((b.toNat + 2) * 4)

/-- The types of the headers that are stepped over. -/
def IsExtType (nh : UInt8) : Prop := nh = 0 ∨ nh = 43 ∨ nh = 60 ∨ nh = 44 ∨ nh = 51

/-- `Chain pkt nh off n proto l4`: from a header of type `nh` at `off`, `n`
extension headers lead to the upper-layer protocol `proto` at `l4`, inside the
packet. -/
inductive Chain (pkt : Packet) : UInt8 → Nat → Nat → UInt8 → Nat → Prop
  | upper {nh : UInt8} {off : Nat} (h : ¬ IsExtType nh) : Chain pkt nh off 0 nh off
  | ext {nh nh' proto : UInt8} {off len n l4 : Nat} (hext : ExtHeader pkt off nh len)
      (hnext : pkt[off]? = some nh') (hin : off + len < pkt.length)
      (rest : Chain pkt nh' (off + len) n proto l4) : Chain pkt nh off (n + 1) proto l4

/-- The header chain of a packet, after `n` extension headers, leads to the
upper-layer protocol `proto` at offset `l4`. -/
inductive LeadsTo (pkt : Packet) : Nat → UInt8 → Nat → Prop
  | v4 {b : UInt8} (hb : pkt.head? = some b) (hver : b.toNat / 16 = 4)
      (hmin : 5 ≤ b.toNat % 16) (hlen : b.toNat % 16 * 4 ≤ pkt.length)
      (first : ((byteAt pkt 6).toNat * 256 + (byteAt pkt 7).toNat) % 8192 = 0) :
      LeadsTo pkt 0 (byteAt pkt 9) (b.toNat % 16 * 4)
  | v6 {b proto : UInt8} {n l4 : Nat} (hb : pkt.head? = some b) (hver : b.toNat / 16 = 6)
      (hlen : 40 ≤ pkt.length) (chain : Chain pkt (byteAt pkt 6) 40 n proto l4) :
      LeadsTo pkt n proto l4

/-- A complete UDP header, or a TCP header with SYN set and ACK clear. -/
def OpensFlow (pkt : Packet) (proto : UInt8) (l4 : Nat) : Prop :=
  (proto = 17 ∧ l4 + 8 ≤ pkt.length) ∨
    (proto = 6 ∧ l4 + 14 ≤ pkt.length ∧ isSyn (byteAt pkt (l4 + 13)) = true)

/-! ## the parser's walk -/

theorem extStep_of_extHeader {pkt : Packet} {off len : Nat} {nh : UInt8}
    (h : ExtHeader pkt off nh len) : extStep pkt nh off = .over len := by
  cases h with
  | options hnh hb => simp [extStep, hnh, hb]
  | fragment hhi hlo first =>
      rename_i hi lo
      have hshift : (hi.toNat * 256 + lo.toNat) >>> 3 = 0 := by
        rw [Nat.shiftRight_eq_div_pow]
        exact first
      simp [extStep, hhi, hlo, hshift]
  | auth hb => simp [extStep, hb]

theorem extStep_of_not_isExtType {pkt : Packet} {off : Nat} {nh : UInt8} (h : ¬ IsExtType nh) :
    extStep pkt nh off = .upper := by
  simp only [IsExtType, not_or] at h
  simp [extStep, h]

/-- The loop follows a chain exactly when it has turns enough for the headers
and one for the upper layer. -/
theorem skipExtLoop_of_chain {pkt : Packet} {nh proto : UInt8} {off n l4 : Nat}
    (h : Chain pkt nh off n proto l4) (turns : Nat) :
    skipExtLoop pkt turns nh off = if n < turns then some (proto, l4) else none := by
  induction h generalizing turns with
  | upper h =>
      cases turns with
      | zero => rfl
      | succ turns => simp [skipExtLoop, extStep_of_not_isExtType h]
  | ext hext hnext hin _ ih =>
      cases turns with
      | zero => rfl
      | succ turns =>
          simp [skipExtLoop, extStep_of_extHeader hext, hnext, Nat.not_le.mpr hin, ih]

/-- An IPv4 packet is taken apart at the end of its header. -/
theorem l3_v4 {pkt : Packet} {b : UInt8} (hb : pkt.head? = some b) (hver : b.toNat / 16 = 4)
    (hmin : 5 ≤ b.toNat % 16) (hlen : b.toNat % 16 * 4 ≤ pkt.length) :
    ∃ h3, l3 pkt = some h3 ∧ h3.proto = byteAt pkt 9 ∧ h3.l4 = b.toNat % 16 * 4 := by
  have hbyte : byteAt pkt 0 = b := by
    simp [byteAt, List.getD_eq_getElem?_getD, ← List.head?_eq_getElem?, hb]
  have h20 : ¬ pkt.length < 20 := by omega
  have hfits : ¬ (b.toNat % 16 * 4 < 20 ∨ pkt.length < b.toNat % 16 * 4) := by omega
  simp [l3, hb, hver, hbyte, h20, hfits]

/-- An IPv6 packet is taken apart where the loop ends. -/
theorem l3_v6 {pkt : Packet} {b : UInt8} (hb : pkt.head? = some b) (hver : b.toNat / 16 = 6)
    (hlen : 40 ≤ pkt.length) : ∃ src dst, l3 pkt =
      (skipExt pkt (byteAt pkt 6) 40).map fun x => ⟨x.1, .v6 src, .v6 dst, x.2⟩ := by
  have hsrc : ((pkt.drop 8).take 16).length = 16 := by
    rw [List.length_take, List.length_drop]
    omega
  have hdst : ((pkt.drop 24).take 16).length = 16 := by
    rw [List.length_take, List.length_drop]
    omega
  refine ⟨⟨_, hsrc⟩, ⟨_, hdst⟩, ?_⟩
  cases hskip : skipExt pkt (byteAt pkt 6) 40 <;>
    simp [l3, hb, hver, Nat.not_lt.mpr hlen, ipv6At, hsrc, hdst, hskip]

/-- A packet whose chain has at most seven extension headers is taken apart
where the chain leads; one with more is refused. -/
theorem l3_of_leadsTo {pkt : Packet} {n l4 : Nat} {proto : UInt8} (h : LeadsTo pkt n proto l4) :
    if n ≤ 7 then ∃ h3, l3 pkt = some h3 ∧ h3.proto = proto ∧ h3.l4 = l4 else l3 pkt = none := by
  cases h with
  | v4 hb hver hmin hlen first =>
      rw [if_pos (Nat.zero_le 7)]
      exact l3_v4 hb hver hmin hlen
  | v6 hb hver hlen chain =>
      obtain ⟨src, dst, hl3⟩ := l3_v6 hb hver hlen
      rw [skipExt, skipExtLoop_of_chain chain 8] at hl3
      split_ifs with hn
      · rw [if_pos (by omega)] at hl3
        exact ⟨_, hl3, rfl, rfl⟩
      · rw [if_neg (by omega)] at hl3
        exact hl3

/-- A packet that opens a flow and is taken apart gives a flow to judge. -/
theorem parse_of_leadsTo {pkt : Packet} {n l4 : Nat} {proto : UInt8} (h : LeadsTo pkt n proto l4)
    (hopen : OpensFlow pkt proto l4) (hn : n ≤ 7) :
    ∃ f, parse pkt = some f ∧ f.proto = proto ∧ (f.synOnly = true ∨ f.proto = 17) ∧
      f.sport = beU16 (byteAt pkt l4) (byteAt pkt (l4 + 1)) := by
  have hl3 := l3_of_leadsTo h
  rw [if_pos hn] at hl3
  obtain ⟨h3, hl3, rfl, rfl⟩ := hl3
  have hlen : ¬ pkt.length < h3.l4 + 4 := by
    rcases hopen with ⟨-, hlen⟩ | ⟨-, hlen, -⟩ <;> omega
  have hparse := parse.eq_1 pkt
  simp only [hl3, if_neg hlen] at hparse
  refine ⟨_, hparse, rfl, ?_, rfl⟩
  rcases hopen with ⟨hproto, -⟩ | ⟨hproto, hlen, hsyn⟩
  · exact .inr hproto
  · exact .inl (by simp [hproto, hlen, hsyn])

/-- A packet with a longer chain is not parsed at all. -/
theorem parse_of_long_chain {pkt : Packet} {n l4 : Nat} {proto : UInt8}
    (h : LeadsTo pkt n proto l4) (hn : 7 < n) : parse pkt = none := by
  have hl3 := l3_of_leadsTo h
  rw [if_neg (by omega)] at hl3
  simp [parse, hl3]

end Pfsnitch
