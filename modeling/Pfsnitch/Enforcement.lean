import Pfsnitch.Daemon.Frame
import Pfsnitch.Divert.Walk

/-!
# Pfsnitch.Enforcement

Which packets enforcement lets through.

A settled verdict is an allow or a deny (`reachable_settled`), so an outbound
packet that opens a flow and is judged goes on only by an allow.  The packets
that are not judged are those whose header chain the parser refuses, and
datagrams from port 53, which are taken for DNS answers before their direction
is looked at (`enforcement_sound_iff`).
-/

namespace Pfsnitch

open Lib

variable [Casing]

/-! ## settled verdicts -/

/-- Nothing is settled as an ask. -/
def Settled (w : World) : Prop :=
  ∀ d, w.daemon = some d → ∀ flow, d.decided.lookup flow ≠ some .ask

omit [Casing] in
/-- What is found after settling a flow: its verdict, or what was there. -/
theorem lookup_settle {decided : AList fun _ : FlowKey => Verdict} {flow flow' : FlowKey}
    {v v' : Verdict} (h : (settle decided flow v).lookup flow' = some v') :
    (flow' = flow ∧ v' = v) ∨ decided.lookup flow' = some v' := by
  by_cases hflow : flow' = flow
  · subst hflow
    rw [settle, AList.lookup_insert, Option.some.injEq] at h
    exact .inl ⟨rfl, h.symm⟩
  · rw [settle, AList.lookup_insert_ne hflow] at h
    split at h
    · simp at h
    · exact .inr h

omit [Casing] in
theorem KVerdict.verdict_ne_ask (v : KVerdict) : v.verdict ≠ .ask := by
  cases v <;> simp [KVerdict.verdict]

/-- The settled verdicts after a packet: those before it, or one more. -/
theorem SlowCase.decided {inp : Input} {os : Os} {d : Daemon} {pkt : Packet} {src : Sockaddr}
    {f : Flow} {kern : Option Handle} {r : Handled} (h : SlowCase inp os d pkt src f kern r) :
    r.daemon.decided = d.decided ∨ ∃ v : KVerdict,
      slowVerdict d.pol os.env d.names f.key = v.verdict ∧
        r.daemon.decided = settle d.decided f.key v.verdict := by
  cases h with
  | @settled v _ _ hv hpush =>
      refine .inr ⟨v, hv, ?_⟩
      obtain ⟨-, rfl⟩ | ⟨_, -, -, -, rfl⟩ := pushSettled_cases hpush <;> rfl
  | held hv hmode hraise =>
      obtain ⟨⟨_, _, rfl⟩, -⟩ := raise_cases hraise
      exact .inl rfl
  | learned hv hmode hl => exact .inl rfl

theorem PacketCase.settled {inp : Input} {os : Os} {d : Daemon} {pkt : Packet} {src : Sockaddr}
    {r : Handled} (h : PacketCase inp os d pkt src r)
    (hinv : ∀ flow, d.decided.lookup flow ≠ some .ask) :
    ∀ flow, r.daemon.decided.lookup flow ≠ some .ask := by
  cases h with
  | unjudged | dns | fast => exact hinv
  | slow _ _ _ _ _ _ h =>
      obtain heq | ⟨v, -, heq⟩ := h.decided <;> rw [heq]
      · exact hinv
      · intro flow hlookup
        obtain ⟨-, hv⟩ | hold := lookup_settle hlookup
        · exact v.verdict_ne_ask hv.symm
        · exact hinv flow hold

/-- Every step keeps asks out of the settled verdicts. -/
theorem step_settled {w w' : World} {ev : Event} {o : List Output}
    (h : w.step ev = some (w', o)) (hinv : Settled w) : Settled w' := by
  obtain ⟨inp, d, rfl, hd, hmain⟩ | hout := step_cases h
  · have hd' := hinv d hd
    rintro d₁ hd₁
    cases hmain with
    | moves hm =>
        obtain rfl := Option.some.inj hd₁
        exact hd'
    | exits hpc => cases hd₁
    | answer hpc hrx hdrain =>
        obtain rfl := Option.some.inj hd₁
        obtain ⟨_, _, _, _, -, -, -, rfl⟩ := drainAnswer_cases hdrain
        exact hd'
    | upcall hpc hurx hdrain =>
        obtain rfl := Option.some.inj hd₁
        cases drainUpcall_cases hdrain with
        | resolved hv hr => exact hd'
        | asked hpath hv hraise =>
            obtain ⟨⟨_, _, rfl⟩, -⟩ := raise_cases hraise
            exact hd'
    | effect hpc hop =>
        obtain ⟨d₂, rfl, rfl⟩ := Option.map_eq_some_iff.mp hd₁
        by_cases hclear : ‹Op› = .clearDecided
        · subst hclear
          simp only [Op.run, Prod.mk.injEq, Option.some.injEq] at hop
          obtain ⟨-, rfl, -⟩ := hop
          simp
        · intro flow
          rw [(Op.run_keeps hop).decided hclear]
          exact hd' flow
    | packet hpc hpkt hr =>
        obtain rfl := Option.some.inj hd₁
        exact (hr ▸ handlePacket_cases inp w.os d _ _).settled hd'
  · obtain hnone | ⟨fallback, -, hnew⟩ | ⟨d, d', hd, hd', _, _, _, _, _, rfl⟩ := hout.daemon
    · intro d hd
      simp [hnone] at hd
    · intro d hd
      obtain rfl := Option.some.inj (hnew.symm.trans hd)
      simp [Daemon.new]
    · intro d₁ hd₁
      obtain rfl := Option.some.inj (hd'.symm.trans hd₁)
      exact hinv d hd

/-- In every state reached, what is settled is an allow or a deny. -/
theorem reachable_settled {ok : World → Event → Prop} {w : World} (h : Reachable ok w) :
    Settled w := by
  obtain ⟨w₀, hinit, hrun⟩ := h
  exact hrun.invariant hinit.no_daemon fun _ _ _ _ hinv _ hstep => step_settled hstep hinv

/-! ## the packets that open a flow -/

/-- A packet that is let through is let through by an allow. -/
def Enforced (inp : Input) (os : Os) (d : Daemon) (pkt : Packet) (src : Sockaddr) : Prop :=
  .reinject pkt src ∈ (handlePacket inp os d pkt src).outs →
    (handlePacket inp os d pkt src).used = some .allow

/-- In enforcement, a packet on the slow path is let through by an allow. -/
theorem SlowCase.enforced {inp : Input} {os : Os} {d : Daemon} {pkt : Packet} {src : Sockaddr}
    {f : Flow} {kern : Option Handle} {r : Handled} (h : SlowCase inp os d pkt src f kern r)
    (hmode : d.mode = .enforcement) (hmem : .reinject pkt src ∈ r.outs) : r.used = some .allow := by
  cases h with
  | @settled v _ _ hv hpush =>
      rw [hmode, mem_fate_enforcement, decide_eq_true_eq] at hmem
      rw [hmem]
      rfl
  | held hv _ hraise =>
      obtain ⟨-, rfl | rfl⟩ := raise_cases hraise <;> simp at hmem
  | learned hv hvis _ => simp [hmode] at hvis

/-- **Enforcement on the divert path.**  In every reachable state of the loop
in enforcement, an outbound packet that opens a flow is let through only by an
allow exactly when its chain has at most seven extension headers and it is not
a datagram from port 53. -/
theorem enforcement_sound_iff {w : World} (hw : Reachable (fun _ _ => True) w) {d : Daemon}
    (hd : w.daemon = some d) (hmode : d.mode = .enforcement) (inp : Input) {pkt : Packet}
    {src : Sockaddr} (hsrc : src.addr = 0) {n l4 : Nat} {proto : UInt8}
    (hlead : LeadsTo pkt n proto l4) (hopen : OpensFlow pkt proto l4) :
    Enforced inp w.os d pkt src ↔
      n ≤ 7 ∧ ¬ (proto = 17 ∧ beU16 (byteAt pkt l4) (byteAt pkt (l4 + 1)) = 53) := by
  have hsettled := reachable_settled hw d hd
  unfold Enforced
  by_cases hn : n ≤ 7
  · obtain ⟨f, hparse, hproto, hflow, hsport⟩ := parse_of_leadsTo hlead hopen hn
    rw [← hproto, ← hsport]
    have hcase := handlePacket_cases inp w.os d pkt src
    generalize handlePacket inp w.os d pkt src = r at hcase ⊢
    cases hcase with
    | unjudged h => exact absurd hflow ((h f hparse).2 hsrc)
    | dns hparse' hdns =>
        obtain rfl := Option.some.inj (hparse.symm.trans hparse')
        simp [hdns]
    | @fast _ v hparse' hdns _ hlookup =>
        obtain rfl := Option.some.inj (hparse.symm.trans hparse')
        refine iff_of_true (fun hmem => ?_) ⟨hn, hdns⟩
        rw [hmode, mem_fate_enforcement] at hmem
        cases v with
        | allow => rfl
        | deny => cases hmem
        | ask => exact absurd hlookup (hsettled f.key)
    | slow hparse' hdns _ _ _ _ h =>
        obtain rfl := Option.some.inj (hparse.symm.trans hparse')
        exact iff_of_true (h.enforced hmode) ⟨hn, hdns⟩
  · -- a packet the parser refuses is let through unjudged
    have hparse := parse_of_long_chain hlead (Nat.lt_of_not_le hn)
    refine iff_of_false (fun h => ?_) fun h => hn h.1
    simp [handlePacket, hparse] at h

omit [Casing] in
/-- An outbound datagram to 192.0.2.1, port 443. -/
def datagram (sport : UInt8) : Packet :=
  [0x45, 0, 0, 28, 0, 0, 0, 0, 64, 17, 0, 0, 10, 0, 0, 1, 192, 0, 2, 1, 0, sport, 1, 187, 0, 8, 0, 0]

omit [Casing] in
theorem datagram_leadsTo (sport : UInt8) : LeadsTo (datagram sport) 0 17 20 :=
  LeadsTo.v4 (b := 0x45) rfl (by decide) (by decide) (by simp [datagram]) (by simp [datagram, byteAt])

omit [Casing] in
theorem datagram_opensFlow (sport : UInt8) : OpensFlow (datagram sport) 17 20 :=
  .inl ⟨rfl, by simp [datagram]⟩

omit [Casing] in
/-- A daemon that starts in enforcement without a policy file reaches its loop. -/
theorem exists_enforcing :
    letI := asciiCasing
    ∃ w d, Reachable (fun _ _ => True) w ∧ w.daemon = some d ∧ d.mode = .enforcement ∧
      d.pc = .recv := by
  let _ := asciiCasing
  obtain ⟨w, hw, hp⟩ := exists_reachable_of_exec (fun _ _ => True) World.idle ⟨rfl, rfl⟩
    (startEvents .enforcement 9)
    (fun w => w.daemon.any fun d => d.mode = .enforcement ∧ d.pc = .recv) (by decide +kernel)
  obtain ⟨d, hd, hp⟩ := (Option.any_eq_true _ _).mp hp
  rw [decide_eq_true_eq] at hp
  exact ⟨w, d, hw, hd, hp⟩

omit [Casing] in
/-- A datagram from an ordinary port is let through only by an allow. -/
theorem enforcement_sound_datagram :
    letI := asciiCasing
    ∃ w d, Reachable (fun _ _ => True) w ∧ w.daemon = some d ∧ d.mode = .enforcement ∧
      Enforced {} w.os d (datagram 9) ⟨0, 0⟩ := by
  let _ := asciiCasing
  obtain ⟨w, d, hw, hd, hmode, -⟩ := exists_enforcing
  exact ⟨w, d, hw, hd, hmode, (enforcement_sound_iff hw hd hmode {} rfl (datagram_leadsTo 9)
    (datagram_opensFlow 9)).mpr ⟨by decide, by decide⟩⟩

omit [Casing] in
/-- One from port 53 goes on unjudged. -/
theorem enforcement_passes_port_53 :
    letI := asciiCasing
    ¬ ∀ (w : World) (d : Daemon) (inp : Input) (pkt : Packet) (src : Sockaddr) (n l4 : Nat)
      (proto : UInt8), Reachable (fun _ _ => True) w → w.daemon = some d → d.pc = .recv →
      d.mode = .enforcement → src.addr = 0 → LeadsTo pkt n proto l4 → OpensFlow pkt proto l4 →
      Enforced inp w.os d pkt src := by
  let _ := asciiCasing
  intro h
  obtain ⟨w, d, hw, hd, hmode, hpc⟩ := exists_enforcing
  have henf := h w d {} (datagram 53) ⟨0, 0⟩ 0 20 17 hw hd hpc hmode rfl (datagram_leadsTo 53)
    (datagram_opensFlow 53)
  have hcase := handlePacket_cases {} w.os d (datagram 53) ⟨0, 0⟩
  unfold Enforced at henf
  generalize handlePacket {} w.os d (datagram 53) ⟨0, 0⟩ = r at henf hcase
  have hparse : ∃ f, parse (datagram 53) = some f ∧ f.proto = 17 ∧ f.sport = 53 :=
    ⟨_, rfl, by decide, by decide⟩
  obtain ⟨f, hparse, hdns⟩ := hparse
  cases hcase with
  | unjudged h => exact (h f hparse).1 hdns
  | dns => simp at henf
  | fast hparse' hno | slow hparse' hno =>
      obtain rfl := Option.some.inj (hparse.symm.trans hparse')
      exact hno hdns

end Pfsnitch
