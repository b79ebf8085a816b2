import Pfsnitch.Divert.Checked
import Pfsnitch.Divert.Walk

/-!
# Pfsnitch.Headers

The header walk against the formats of the two families, for every byte string.

`Walk pkt n o` says how a walk by the header lengths alone ends, after `n` extension
headers.  It always ends (`exists_walk`), the parser ends where it does
(`header_walk_agrees`), and nothing on the way leaves the packet.

A fragment with an offset holds no upper-layer header.  The parser refuses those of IPv6,
and does not look at the offset of IPv4 (`later_fragment_refused_iff`).
-/

namespace Pfsnitch

variable {pkt : Packet} {nh proto : UInt8} {off n l4 : Nat}

/-! ## the walk of the lengths -/

/-- How a walk ends: at an upper-layer header that starts inside the packet, with the packet
before it gets there, at a fragment that holds none, or at a header it cannot walk. -/
inductive Outcome where
  | upper (proto : UInt8) (l4 : Nat)
  | cut
  | laterFragment
  | badLength
  | otherVersion

/-- `Steps pkt nh off n o`: from a header of type `nh` at `off`, the walk meets `n`
extension headers and ends with `o`. -/
inductive Steps (pkt : Packet) : UInt8 → Nat → Nat → Outcome → Prop
  | upper {nh : UInt8} {off : Nat} (h : ¬ IsExtType nh) (hin : off < pkt.length) :
      Steps pkt nh off 0 (.upper nh off)
  | beyond {nh : UInt8} {off : Nat} (h : ¬ IsExtType nh) (hout : pkt.length ≤ off) :
      Steps pkt nh off 0 .cut
  | header {nh nh' : UInt8} {off len n : Nat} {o : Outcome} (hext : ExtHeader pkt off nh len)
      (hnext : pkt[off]? = some nh') (rest : Steps pkt nh' (off + len) n o) :
      Steps pkt nh off (n + 1) o
  | later {off : Nat} {hi lo : UInt8} (hhi : pkt[off + 2]? = some hi) (hlo : pkt[off + 3]? = some lo)
      (hoff : (hi.toNat * 256 + lo.toNat) / 8 ≠ 0) : Steps pkt 44 off 1 .laterFragment
  | short {nh : UInt8} {off : Nat} (h : IsExtType nh)
      (hout : pkt.length ≤ off + if nh = 44 then 3 else 1) : Steps pkt nh off 1 .cut

/-- `Walk pkt n o`: the headers of the packet, with `n` extension headers, end with `o`. -/
inductive Walk (pkt : Packet) : Nat → Outcome → Prop
  | empty (h : pkt = []) : Walk pkt 0 .cut
  | short4 {b : UInt8} (hb : pkt.head? = some b) (hver : b.toNat / 16 = 4)
      (hlen : pkt.length < 20) : Walk pkt 0 .cut
  | bad4 {b : UInt8} (hb : pkt.head? = some b) (hver : b.toNat / 16 = 4) (hlen : 20 ≤ pkt.length)
      (hbad : b.toNat % 16 < 5) : Walk pkt 0 .badLength
  | beyond4 {b : UInt8} (hb : pkt.head? = some b) (hver : b.toNat / 16 = 4)
      (hmin : 5 ≤ b.toNat % 16) (hlen : 20 ≤ pkt.length) (hout : pkt.length ≤ b.toNat % 16 * 4) :
      Walk pkt 0 .cut
  | upper4 {b : UInt8} (hb : pkt.head? = some b) (hver : b.toNat / 16 = 4)
      (hmin : 5 ≤ b.toNat % 16) (hin : b.toNat % 16 * 4 < pkt.length) :
      Walk pkt 0 (.upper (byteAt pkt 9) (b.toNat % 16 * 4))
  | short6 {b : UInt8} (hb : pkt.head? = some b) (hver : b.toNat / 16 = 6)
      (hlen : pkt.length < 40) : Walk pkt 0 .cut
  | steps6 {b : UInt8} {n : Nat} {o : Outcome} (hb : pkt.head? = some b) (hver : b.toNat / 16 = 6)
      (hlen : 40 ≤ pkt.length) (steps : Steps pkt (byteAt pkt 6) 40 n o) : Walk pkt n o
  | other {b : UInt8} (hb : pkt.head? = some b) (h4 : b.toNat / 16 ≠ 4) (h6 : b.toNat / 16 ≠ 6) :
      Walk pkt 0 .otherVersion

/-! ## every walk ends -/

/-- An extension header is readable, or holds a later fragment, or is cut off. -/
theorem extHeader_cases (pkt : Packet) (off : Nat) (h : IsExtType nh) :
    (∃ len, 0 < len ∧ ExtHeader pkt off nh len) ∨ Steps pkt nh off 1 .laterFragment ∨
      Steps pkt nh off 1 .cut := by
  by_cases hcut : pkt.length ≤ off + if nh = 44 then 3 else 1
  · exact .inr (.inr (.short h hcut))
  · by_cases hfrag : nh = 44
    · subst hfrag
      rw [if_pos rfl] at hcut
      have hhi : pkt[off + 2]? = some pkt[off + 2] := List.getElem?_eq_getElem (by omega)
      have hlo : pkt[off + 3]? = some pkt[off + 3] := List.getElem?_eq_getElem (by omega)
      by_cases hoff : (pkt[off + 2].toNat * 256 + pkt[off + 3].toNat) / 8 = 0
      · exact .inl ⟨8, by omega, .fragment hhi hlo hoff⟩
      · exact .inr (.inl (.later hhi hlo hoff))
    · rw [if_neg hfrag] at hcut
      have hb : pkt[off + 1]? = some pkt[off + 1] := List.getElem?_eq_getElem (by omega)
      by_cases hauth : nh = 51
      · subst hauth
        exact .inl ⟨_, by omega, .auth hb⟩
      · have hopt : nh = 0 ∨ nh = 43 ∨ nh = 60 := by
          simp only [IsExtType, hfrag, hauth, or_false] at h
          exact h
        exact .inl ⟨_, by omega, .options hopt hb⟩

theorem exists_steps (pkt : Packet) (nh : UInt8) (off : Nat) : ∃ n o, Steps pkt nh off n o := by
  induction hk : pkt.length - off using Nat.strong_induction_on generalizing nh off with
  | _ k ih =>
      by_cases h : IsExtType nh
      · by_cases hin : off < pkt.length
        · obtain ⟨len, hlen, hext⟩ | hlater | hcut := extHeader_cases pkt off h
          · obtain ⟨n, o, rest⟩ := ih (pkt.length - (off + len)) (by omega) pkt[off] (off + len) rfl
            exact ⟨n + 1, o, .header hext (List.getElem?_eq_getElem hin) rest⟩
          · exact ⟨1, _, hlater⟩
          · exact ⟨1, _, hcut⟩
        · exact ⟨1, .cut, .short h (by omega)⟩
      · by_cases hin : off < pkt.length
        · exact ⟨0, _, .upper h hin⟩
        · exact ⟨0, .cut, .beyond h (by omega)⟩

/-- Every packet has a walk. -/
theorem exists_walk (pkt : Packet) : ∃ n o, Walk pkt n o := by
  cases hb : pkt.head? with
  | none => exact ⟨0, .cut, .empty (List.head?_eq_none_iff.mp hb)⟩
  | some b =>
      by_cases h4 : b.toNat / 16 = 4
      · by_cases hlen : pkt.length < 20
        · exact ⟨0, .cut, .short4 hb h4 hlen⟩
        · by_cases hbad : b.toNat % 16 < 5
          · exact ⟨0, .badLength, .bad4 hb h4 (by omega) hbad⟩
          · by_cases hin : b.toNat % 16 * 4 < pkt.length
            · exact ⟨0, _, .upper4 hb h4 (by omega) hin⟩
            · exact ⟨0, .cut, .beyond4 hb h4 (by omega) (by omega) (by omega)⟩
      · by_cases h6 : b.toNat / 16 = 6
        · by_cases hlen : pkt.length < 40
          · exact ⟨0, .cut, .short6 hb h6 hlen⟩
          · obtain ⟨n, o, steps⟩ := exists_steps pkt (byteAt pkt 6) 40
            exact ⟨n, o, .steps6 hb h6 (by omega) steps⟩
        · exact ⟨0, .otherVersion, .other hb h4 h6⟩

/-! ## the parser's walk -/

/-- Steps that end inside the packet are a chain of headers inside it. -/
theorem Steps.chain (h : Steps pkt nh off n (.upper proto l4)) :
    Chain pkt nh off n proto l4 ∧ off ≤ l4 ∧ l4 < pkt.length := by
  generalize ho : Outcome.upper proto l4 = o at h
  induction h with
  | upper h hin =>
      cases ho
      exact ⟨.upper h, le_rfl, hin⟩
  | header hext hnext _ ih =>
      obtain ⟨chain, hle, hin⟩ := ih ho
      exact ⟨.ext hext hnext (by omega) chain, by omega, hin⟩
  | beyond => cases ho
  | later => cases ho
  | short => cases ho

/-- The loop refuses a fragment without an upper-layer header wherever it stands. -/
theorem skipExtLoop_of_later (h : Steps pkt nh off n .laterFragment) (turns : Nat) :
    skipExtLoop pkt turns nh off = none := by
  generalize ho : Outcome.laterFragment = o at h
  induction h generalizing turns with
  | header hext hnext _ ih =>
      cases turns with
      | zero => rfl
      | succ turns => simp [skipExtLoop, extStep_of_extHeader hext, hnext, ih turns ho]
  | later hhi hlo hoff =>
      cases turns with
      | zero => rfl
      | succ turns =>
          have hshift : ∀ x : Nat, x >>> 3 = x / 8 := fun x => Nat.shiftRight_eq_div_pow x 3
          simp [skipExtLoop, extStep, hhi, hlo, hshift, hoff]
  | upper => cases ho
  | beyond => cases ho
  | short => cases ho

/-- Where the walk ends at an upper-layer header, so does the parser. -/
theorem l3_of_walk (h : Walk pkt n (.upper proto l4)) (hn : n ≤ 7) :
    ∃ h3, l3 pkt = some h3 ∧ h3.proto = proto ∧ h3.l4 = l4 := by
  cases h with
  | upper4 hb hver hmin hin => exact l3_v4 hb hver hmin (by omega)
  | steps6 hb hver hlen steps =>
      obtain ⟨src, dst, hl3⟩ := l3_v6 hb hver hlen
      rw [skipExt, skipExtLoop_of_chain steps.chain.1 8, if_pos (by omega)] at hl3
      exact ⟨_, hl3, rfl, rfl⟩

/-- **Header walking agrees with the format** and never leaves the packet. -/
theorem header_walk_agrees (pkt : Packet) :
    (parseChecked pkt = .ok (parse pkt) ∧ payloadOffsetChecked pkt = .ok (payloadOffset pkt) ∧
      tcpRstChecked pkt = .ok (tcpRst pkt)) ∧
    (∃ n o, Walk pkt n o) ∧
    ∀ n o, Walk pkt n o → n ≤ 7 →
      (∀ proto l4, o = .upper proto l4 → ∃ h, l3 pkt = some h ∧ h.proto = proto ∧ h.l4 = l4) ∧
      (l3 pkt = none → o = .cut ∨ o = .laterFragment ∨ o = .badLength ∨ o = .otherVersion) := by
  refine ⟨⟨parseChecked_eq pkt, payloadOffsetChecked_eq pkt, tcpRstChecked_eq pkt⟩,
    exists_walk pkt, fun n o hwalk hn => ⟨?_, fun hnone => ?_⟩⟩
  · rintro proto l4 rfl
    exact l3_of_walk hwalk hn
  · cases o with
    | upper proto l4 =>
        obtain ⟨h, hsome, -⟩ := l3_of_walk hwalk hn
        rw [hnone] at hsome
        cases hsome
    | cut => exact .inl rfl
    | laterFragment => exact .inr (.inl rfl)
    | badLength => exact .inr (.inr (.inl rfl))
    | otherVersion => exact .inr (.inr (.inr rfl))

/-! ## fragments -/

/-- A fragment with an offset: in the fixed header of IPv4, or in a fragment header of
IPv6. -/
inductive LaterFragment (pkt : Packet) : Prop
  | v4 {b : UInt8} (hb : pkt.head? = some b) (hver : b.toNat / 16 = 4) (hlen : 8 ≤ pkt.length)
      (hoff : ((byteAt pkt 6).toNat * 256 + (byteAt pkt 7).toNat) % 8192 ≠ 0)
  | v6 {n : Nat} (walk : Walk pkt n .laterFragment)

/-- An IPv4 packet with a well-formed header and at least four bytes after it. -/
def PortsFollow4 (pkt : Packet) : Prop :=
  ∃ b, pkt.head? = some b ∧ b.toNat / 16 = 4 ∧ 5 ≤ b.toNat % 16 ∧
    b.toNat % 16 * 4 + 4 ≤ pkt.length

/-- An IPv4 packet is parsed when its header is well-formed and its ports are there. -/
theorem parse_isSome_v4 {b : UInt8} (hb : pkt.head? = some b) (hver : b.toNat / 16 = 4) :
    (parse pkt).isSome ↔ 5 ≤ b.toNat % 16 ∧ b.toNat % 16 * 4 + 4 ≤ pkt.length := by
  by_cases hok : 5 ≤ b.toNat % 16 ∧ b.toNat % 16 * 4 ≤ pkt.length
  · obtain ⟨h3, hl3, -, hl4⟩ := l3_v4 hb hver hok.1 hok.2
    rw [parse, hl3]
    dsimp only
    split
    · simp
      omega
    · simp
      omega
  · have hnone : l3 pkt = none := by
      have hbyte : byteAt pkt 0 = b := by
        simp [byteAt, List.getD_eq_getElem?_getD, ← List.head?_eq_getElem?, hb]
      rw [l3, hb]
      dsimp only
      rw [if_pos hver, hbyte]
      split
      · rfl
      · rw [if_pos (by omega)]
    rw [parse, hnone]
    simp
    omega

/-- A reset answers only what is parsed. -/
theorem tcpRst_of_parse (h : parse pkt = none) : tcpRst pkt = none := by
  rw [parse] at h
  rw [tcpRst]
  cases hl3 : l3 pkt with
  | none => rfl
  | some h3 =>
      simp only [hl3] at h
      split at h
      · exact if_pos (.inr (by omega))
      · cases h

/-- **Payload is never read as ports** in a fragment with an offset, unless it is one of
IPv4 with a well-formed header and at least four bytes after it. -/
theorem later_fragment_refused_iff (h : LaterFragment pkt) :
    (parse pkt = none ∧ tcpRst pkt = none) ↔ ¬ PortsFollow4 pkt := by
  rw [and_iff_left_of_imp tcpRst_of_parse]
  cases h with
  | @v4 b hb hver _ _ =>
      have hports : PortsFollow4 pkt ↔ 5 ≤ b.toNat % 16 ∧ b.toNat % 16 * 4 + 4 ≤ pkt.length := by
        rw [PortsFollow4, hb]
        constructor
        · rintro ⟨b', hb', -, hports⟩
          obtain rfl := Option.some.inj hb'
          exact hports
        · exact fun hports => ⟨b, rfl, hver, hports⟩
      rw [hports, ← parse_isSome_v4 hb hver, Bool.not_eq_true, Option.isSome_eq_false_iff,
        Option.isNone_iff_eq_none]
  | v6 walk =>
      cases walk with
      | @steps6 b n o hb hver hlen steps =>
          obtain ⟨src, dst, hl3⟩ := l3_v6 hb hver hlen
          rw [skipExt, skipExtLoop_of_later steps 8] at hl3
          have hparse : parse pkt = none := by rw [parse, hl3]; rfl
          refine iff_of_true hparse ?_
          rintro ⟨b', hb', hver', -⟩
          rw [hb] at hb'
          obtain rfl := Option.some.inj hb'
          omega

/-- A fragment of IPv6 with offset 8. -/
def fragment6 : Packet :=
  [0x60, 0, 0, 0, 0, 12, 44, 64] ++ List.replicate 32 0 ++ [17, 0, 0, 8, 0, 0, 0, 1, 0, 53, 0, 53]

/-- A fragment of IPv4 with offset 8, from 8.8.8.8. -/
def fragment4 : Packet :=
  [0x45, 0, 0, 24, 0, 1, 0, 1, 64, 17, 0, 0, 8, 8, 8, 8, 10, 0, 0, 2, 0, 53, 0x12, 0x34]

theorem later_fragment_refused_v6 : parse fragment6 = none ∧ tcpRst fragment6 = none := by
  have hwalk : Walk fragment6 1 .laterFragment :=
    .steps6 rfl (by decide) (by decide) (.later rfl rfl (by decide))
  refine (later_fragment_refused_iff (.v6 hwalk)).mpr ?_
  rintro ⟨b, hb, hver, -⟩
  obtain rfl := Option.some.inj hb
  exact absurd hver (by decide)

/-- The middle of an IPv4 datagram is taken for one that comes from a DNS server. -/
theorem later_fragment_parsed :
    ¬ ∀ pkt, LaterFragment pkt → parse pkt = none ∧ tcpRst pkt = none := by
  intro h
  have hlater : LaterFragment fragment4 := .v4 rfl (by decide) (by decide) (by decide)
  have hnone := (h fragment4 hlater).1
  exact absurd hnone (by decide)

end Pfsnitch
