import Pfsnitch.Pf.Rules

/-!
# Pfsnitch.Pf

What the rulesets let through, and what the daemon gets to see.
-/

namespace Pfsnitch.Pf

open Lib

/-! ## what the rules come to -/

/-- A request for a lease, on the external interface. -/
def Packet.renews (p : Packet) : Prop :=
  p.iface = .ext ∧ p.proto = IPPROTO_UDP ∧ p.sport = 68 ∧ p.dport = 67

/-- What comes in without having been asked for: ssh, leases, and what ICMP reports. -/
def Packet.invited (p : Packet) : Prop :=
  (p.iface = .ext ∧ p.proto = IPPROTO_TCP ∧ p.dport = 22 ∧ p.starts) ∨
    (p.iface = .ext ∧ p.proto = IPPROTO_UDP ∧ p.sport = 67 ∧ p.dport = 68) ∨
    (p.inet ∧ p.proto = 1 ∧ p.icmpType ∈ [8, 3, 11])

instance (p : Packet) : Decidable p.renews := inferInstanceAs (Decidable (_ ∧ _))
instance (p : Packet) : Decidable p.invited := inferInstanceAs (Decidable (_ ∨ _))

/-- A packet that leaves, as the anchor is. -/
def leaving (rules : Service.Ruleset) (udp : Bool) (p : Packet) : Action :=
  match rules with
  | .empty => .block
  | .failopen => if p.proto = IPPROTO_TCP ∧ !p.starts then .block else .letOut
  | .divert =>
    if p.proto = IPPROTO_UDP then
      if p.dport = 53 then .toDaemon false else if udp then .toDaemon true else .letOut
    else if p.proto = IPPROTO_TCP then if p.starts then .toDaemon true else .block
    else .letOut

/-- A packet that arrives. -/
def arriving (rules : Service.Ruleset) (p : Packet) : Action :=
  if rules = .divert ∧ p.proto = IPPROTO_UDP ∧ p.sport = 53 then .toDaemon false
  else if p.invited then .letOut
  else .block

/-- What the rules do with a packet without a state. -/
def meaning (rules : Service.Ruleset) (udp : Bool) (p : Packet) : Action :=
  if p.skipped then .letBy
  else if p.out then if p.renews then .letOut else leaving rules udp p
  else arriving rules p

section

-- the rules are read in place, and the decisive one of them is looked for
attribute [local simp] Filter.Item.verdict_eq Filter.Item.rulesAll Filter.Item.rules
  Filter.decisive List.find?_cons List.filter_cons pfConf anchorItems anchorConf udpdivertConf
  failopenConf line Criteria.met Action.block Action.letOut Action.toDaemon IPPROTO_UDP
  IPPROTO_TCP

variable {p : Packet} (rules : Service.Ruleset) (udp : Bool)

/-- Datagrams that leave. -/
theorem ruled_datagram (hout : p.out = true) (hudp : p.proto = IPPROTO_UDP) :
    ruled rules udp p = if p.renews then .letOut else leaving rules udp p := by
  rw [IPPROTO_UDP] at hudp
  by_cases hrenews : p.renews
  · rw [if_pos hrenews]
    obtain ⟨hext, -, hsport, hdport⟩ := hrenews
    cases rules <;> cases udp <;> simp [ruled, hout, hudp, hext, hsport, hdport]
  · rw [if_neg hrenews]
    have hno : ¬((p.iface = .ext ∧ p.sport = 68) ∧ p.dport = 67) := fun h =>
      hrenews ⟨h.1.1, hudp, h.1.2, h.2⟩
    by_cases hdns : p.dport = 53
    · cases rules <;> cases udp <;> simp [ruled, leaving, hout, hudp, hdns]
    · cases rules <;> cases udp <;> simp [ruled, leaving, hout, hudp, hdns, hno]

/-- What leaves otherwise. -/
theorem ruled_leaving (hout : p.out = true) (hudp : p.proto ≠ IPPROTO_UDP) :
    ruled rules udp p = leaving rules udp p := by
  rw [IPPROTO_UDP] at hudp
  by_cases htcp : p.proto = 6
  · cases hstarts : p.starts <;> cases rules <;> cases udp <;>
      simp [ruled, leaving, hout, htcp, hstarts]
  · cases rules <;> cases udp <;> simp [ruled, leaving, hout, hudp, htcp]

/-- What arrives. -/
theorem ruled_arriving (hout : p.out = false) : ruled rules udp p = arriving rules p := by
  by_cases hudp : p.proto = 17
  · by_cases hdns : p.sport = 53
    · cases rules <;> cases udp <;> simp [ruled, arriving, Packet.invited, hout, hudp, hdns]
    · by_cases hlease : (p.iface = .ext ∧ p.sport = 67) ∧ p.dport = 68
      · obtain ⟨⟨hext, hsport⟩, hdport⟩ := hlease
        cases rules <;> cases udp <;>
          simp [ruled, arriving, Packet.invited, hout, hudp, hext, hsport, hdport]
      · have hno : ¬(p.iface = .ext ∧ p.sport = 67 ∧ p.dport = 68) := by rwa [← and_assoc]
        cases rules <;> cases udp <;>
          simp [ruled, arriving, Packet.invited, hout, hudp, hdns, hlease, hno]
  · by_cases htcp : p.proto = 6
    · by_cases hssh : (p.iface = .ext ∧ p.dport = 22) ∧ p.starts = true
      · obtain ⟨⟨hext, hdport⟩, hstarts⟩ := hssh
        cases rules <;> cases udp <;>
          simp [ruled, arriving, Packet.invited, hout, htcp, hext, hdport, hstarts]
      · have hno : ¬(p.iface = .ext ∧ p.dport = 22 ∧ p.starts = true) := by rwa [← and_assoc]
        cases rules <;> cases udp <;>
          simp [ruled, arriving, Packet.invited, hout, htcp, hssh, hno]
    · by_cases hicmp : (p.inet = true ∧ p.proto = 1) ∧
          (p.icmpType = 8 ∨ p.icmpType = 3 ∨ p.icmpType = 11)
      · obtain ⟨⟨hinet, hproto⟩, htype⟩ := hicmp
        cases rules <;> cases udp <;>
          simp [ruled, arriving, Packet.invited, hout, hinet, hproto, htype]
      · have hno : ¬(p.inet = true ∧ p.proto = 1 ∧
            (p.icmpType = 8 ∨ p.icmpType = 3 ∨ p.icmpType = 11)) := by rwa [← and_assoc]
        cases rules <;> cases udp <;>
          simp [ruled, arriving, Packet.invited, hout, hudp, htcp, hicmp, hno]

end

theorem evaluate_eq (rules : Service.Ruleset) (udp : Bool) (p : Packet) :
    evaluate rules udp p = meaning rules udp p := by
  rw [evaluate, meaning]
  refine if_congr Iff.rfl rfl ?_
  cases hout : p.out with
  | false => exact ruled_arriving rules udp hout
  | true =>
      rw [if_pos rfl]
      by_cases hudp : p.proto = IPPROTO_UDP
      · exact ruled_datagram rules udp hout hudp
      · rw [ruled_leaving rules udp hout hudp, if_neg fun h => hudp h.2.1]

/-! ## what becomes of packets -/

@[simp] theorem fate_block : Action.block.fate = .dropped := rfl
@[simp] theorem fate_letOut : Action.letOut.fate = .passed := rfl
@[simp] theorem fate_toDaemon (keep : Bool) : (Action.toDaemon keep).fate = .diverted 8668 := rfl

/-- Does the daemon get a packet that leaves? -/
def divertsOut (udp : Bool) (p : Packet) : Prop :=
  p.proto = IPPROTO_UDP ∧ (p.dport = 53 ∨ udp = true) ∨ p.proto = IPPROTO_TCP ∧ p.starts = true

/-- Does a packet leave by the last rule of the anchor? -/
def letsOut (rules : Service.Ruleset) (udp : Bool) (p : Packet) : Prop :=
  rules = .failopen ∧ (p.proto = IPPROTO_TCP → p.starts = true) ∨
    rules = .divert ∧ p.proto ≠ IPPROTO_TCP ∧ (p.proto = IPPROTO_UDP → p.dport ≠ 53 ∧ udp = false)

instance (udp : Bool) (p : Packet) : Decidable (divertsOut udp p) :=
  inferInstanceAs (Decidable (_ ∨ _))

instance (rules : Service.Ruleset) (udp : Bool) (p : Packet) : Decidable (letsOut rules udp p) :=
  inferInstanceAs (Decidable (_ ∨ _))

theorem fate_leaving (rules : Service.Ruleset) (udp : Bool) (p : Packet) :
    (leaving rules udp p).fate =
      if rules = .divert ∧ divertsOut udp p then .diverted 8668
      else if letsOut rules udp p then .passed else .dropped := by
  have hne : IPPROTO_TCP ≠ IPPROTO_UDP := by decide
  cases rules with
  | empty => simp [leaving, letsOut]
  | failopen => cases hstarts : p.starts <;> by_cases htcp : p.proto = IPPROTO_TCP <;>
      simp [leaving, letsOut, hstarts, htcp]
  | divert =>
      by_cases hudp : p.proto = IPPROTO_UDP
      · by_cases hdns : p.dport = 53 <;> cases udp <;>
          simp [leaving, letsOut, divertsOut, hudp, hdns, hne.symm]
      · cases hstarts : p.starts <;> by_cases htcp : p.proto = IPPROTO_TCP <;>
          simp [leaving, letsOut, divertsOut, hudp, htcp, hstarts, hne]

/-- **What the rulesets do.**  A packet that has no state passes on `lo0`.  Elsewhere it goes to
the daemon if `anchor.conf` is loaded and it is a datagram that leaves (to port 53, or to any
with `udpdivert.conf` loaded), the first packet of a connection over TCP, or the answer of a
name server; it passes without the daemon if it renews a lease, leaves by the last rule of the
anchor or comes in as it may; nothing else passes. -/
theorem rulesets_do (rules : Service.Ruleset) (udp : Bool) (p : Packet) :
    (evaluate rules udp p).fate =
      if p.iface = .lo0 then .passed
      else if p.out then
        if p.renews then .passed
        else if rules = .divert ∧ divertsOut udp p then .diverted 8668
        else if letsOut rules udp p then .passed else .dropped
      else if rules = .divert ∧ p.proto = IPPROTO_UDP ∧ p.sport = 53 then .diverted 8668
      else if p.invited then .passed else .dropped := by
  rw [evaluate_eq, meaning]
  by_cases hlo : p.iface = .lo0
  · rw [if_pos (Packet.skipped_iff.mpr hlo), if_pos hlo]
    rfl
  · rw [if_neg fun h => hlo (Packet.skipped_iff.mp h), if_neg hlo]
    cases hout : p.out with
    | true =>
        by_cases hrenews : p.renews
        · simp only [if_true, if_pos hrenews, fate_letOut]
        · simp only [if_true, if_neg hrenews, fate_leaving]
    | false =>
        rw [if_neg Bool.false_ne_true, if_neg Bool.false_ne_true, arriving]
        split_ifs <;> rfl

end Pfsnitch.Pf
