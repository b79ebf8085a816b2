import Pfsnitch.Resolves
import Pfsnitch.TwoPaths

/-!
# Pfsnitch.MachineDeny

Machine-wide denies, on a packet and on a miss.

Both ways to the policy check the binary first, and a binary that has changed is
asked about whatever the policy says.  A connection that a `deny-host` or a
`deny-dest` line matches is refused exactly when its binary has not changed and,
on the packet's way, the flow is not settled otherwise; and where that is so
throughout, no allow is cached for it (`machine_deny_binds`).
-/

namespace Pfsnitch

open Lib

variable [Casing]

variable {w w' : World} {d d' : Daemon} {ev : Event} {o : List Output} {inp : Input} {os : Os}
  {key : VKey}

/-- A `deny-host` or a `deny-dest` line covers the query. -/
def Policy.MachineDenies (p : Policy) (q : Query) : Prop :=
  ∃ s, p.Has ⟨.deny, s⟩ ∧ ¬ s.Scoped ∧ s.Covers q

/-- What a miss asks the policy. -/
def missQuery (d : Daemon) (ev : KernEvent) : Query :=
  ⟨some ev.path, ev.dst, d.names.nameFor ev.dst, ev.dport⟩

/-- A packet that is judged: outbound, the start of a connection or UDP, and no
DNS answer. -/
structure Judged (pkt : Packet) (src : Sockaddr) (f : Flow) : Prop where
  parsed : parse pkt = some f
  notDns : ¬ (f.proto = 17 ∧ f.sport = 53)
  outbound : src.addr = 0
  opens : f.synOnly = true ∨ f.proto = 17

/-- The packet is judged a deny; nothing is asked and nothing is learned. -/
structure PacketRefused (os : Os) (d : Daemon) (r : Handled) : Prop where
  verdict : r.used = some .deny
  quiet : ∀ p, .prompt p ∉ r.outs
  file : r.os.policy = os.policy
  policy : r.daemon.pol = d.pol

/-- The miss is judged a deny; nothing is asked, learned or left waiting. -/
structure MissRefused (inp : Input) (os : Os) (d : Daemon) (ev : KernEvent) : Prop where
  verdict : upcallVerdict os d ev = .deny
  quiet : ∀ p, .prompt p ∉ (drainUpcall inp os d ev).2.2
  file : (drainUpcall inp os d ev).1.policy = os.policy
  policy : (drainUpcall inp os d ev).2.1.pol = d.pol
  waiters : (drainUpcall inp os d ev).2.1.pendingUpcalls = d.pendingUpcalls

/-- Whatever a step judges under a key is machine-wide denied, and its binary has
not changed. -/
def MachineDenied (key : VKey) (w : World) : Event → Prop
  | .daemon inp => ∀ d, w.daemon = some d →
      (∀ e urx, d.pc = .upcalls → d.urx = e :: urx → e.Asks key →
        d.pol.MachineDenies (missQuery d e) ∧ idChanged d.pol w.os.env e.path = false) ∧
      ∀ pkt src f path, d.pc = .recv → inp.packet = some (pkt, src) → parse pkt = some f →
        flowExe w.os.env f.key = some path →
        key = ⟨f.proto, f.dst, f.dport, (utf8Bytes path).takeWhile (· ≠ 0)⟩ →
        d.pol.MachineDenies (flowQuery w.os.env d.names f.key) ∧ idChanged d.pol w.os.env path = false
  | _ => True

/-! ## the verdict -/

theorem Policy.MachineDenies.decide {p : Policy} {q : Query} (h : p.MachineDenies q) :
    p.decide q.exe q.dst q.host q.dport = .deny := by
  obtain ⟨s, hs, -, hcov⟩ := h
  exact (p.decide_settles q).deny ⟨s, hs, hcov⟩

/-- The two lists of the source that deny machine-wide. -/
theorem machineDenies_iff {p : Policy} {q : Query} : p.MachineDenies q ↔
    (∃ h, q.host = some h ∧ hostMatches p.denyHost h q.dport = true) ∨
      destMatches p.denyDest q.dst q.dport = true := by
  simp only [hostMatches, destMatches, decide_eq_true_eq]
  constructor
  · rintro ⟨s, hs, hmachine, hcov⟩
    cases s with
    | app | hostFrom | destFrom => exact absurd trivial hmachine
    | host pat port =>
        obtain ⟨⟨h, hh, hpat⟩, hport⟩ := hcov
        exact .inl ⟨h, hh, (pat, port), hs, hport, hpat⟩
    | dest addr port => exact .inr ⟨(addr, port), hs, hcov.1.symm, hcov.2⟩
  · rintro (⟨h, hh, ⟨pat, port⟩, hs, hport, hpat⟩ | ⟨⟨addr, port⟩, hs, rfl, hport⟩)
    · exact ⟨.host pat port, hs, id, ⟨h, hh, hpat⟩, hport⟩
    · exact ⟨.dest q.dst port, hs, id, rfl, hport⟩

/-- What is machine-wide denied is judged a deny exactly when its binary has not
changed. -/
theorem Policy.MachineDenies.judge_iff {p : Policy} {q : Query} (h : p.MachineDenies q)
    {env : Env} : judge p env q.exe q.dst q.host q.dport = .deny ↔
      ∀ e, q.exe = some e → idChanged p env e = false := by
  rw [judge_eq_iff (by decide)]
  exact and_iff_left h.decide

/-! ## one packet and one miss -/

omit [Casing] in
theorem prompt_not_mem_fate {mode : Mode} {pkt : Packet} {src : Sockaddr} {allow reject : Bool}
    (p : Prompt) : .prompt p ∉ fate mode pkt src allow reject := by
  unfold fate
  intro hp
  obtain hp | hp := List.mem_append.mp hp
  · split at hp
    · simp at hp
    · cases hp
  · split at hp
    · simp at hp
    · cases hp

theorem packet_refused_iff {pkt : Packet} {src : Sockaddr} {f : Flow} (hjudged : Judged pkt src f)
    (hdeny : d.pol.MachineDenies (flowQuery os.env d.names f.key)) :
    PacketRefused os d (handlePacket inp os d pkt src) ↔
      d.decided.lookup f.key = some .deny ∨ d.decided.lookup f.key = none ∧
        ∀ path, flowExe os.env f.key = some path → idChanged d.pol os.env path = false := by
  have hcase := handlePacket_cases inp os d pkt src
  generalize handlePacket inp os d pkt src = r at hcase ⊢
  cases hcase with
  | unjudged h => exact absurd hjudged.opens ((h f hjudged.parsed).2 hjudged.outbound)
  | @dns g hparse hdns =>
      obtain rfl := Option.some.inj (hjudged.parsed.symm.trans hparse)
      exact absurd hdns hjudged.notDns
  | @fast g v hparse hdns hsrc hv =>
      obtain rfl := Option.some.inj (hjudged.parsed.symm.trans hparse)
      rw [hv]
      constructor
      · intro h
        exact .inl h.verdict
      · rintro (hdeny | ⟨hnone, -⟩)
        · exact ⟨hdeny, prompt_not_mem_fate, rfl, rfl⟩
        · cases hnone
  | @slow g kern _ hparse hdns hsrc hopens hlookup hkern hslow =>
      obtain rfl := Option.some.inj (hjudged.parsed.symm.trans hparse)
      have hiff : slowVerdict d.pol os.env d.names f.key = .deny ↔
          ∀ path, flowExe os.env f.key = some path → idChanged d.pol os.env path = false :=
        hdeny.judge_iff
      rw [hlookup, ← hiff]
      simp only [reduceCtorEq, true_and, false_or]
      cases hslow with
      | @settled v os' d' hv hpush =>
          rw [hv]
          constructor
          · intro h
            exact Option.some.inj h.verdict
          · intro hdeny
            refine ⟨congrArg some hdeny, prompt_not_mem_fate, ?_, ?_⟩
            · obtain ⟨rfl, -⟩ | ⟨path, -, -, rfl, -⟩ := pushSettled_cases hpush
              · rfl
              · exact (Os.sameRest_kernIoctl _ _ _ _).policy
            · obtain ⟨-, rfl⟩ | ⟨path, -, -, -, rfl⟩ := pushSettled_cases hpush <;> rfl
      | held hv | learned hv =>
          rw [hv]
          exact iff_of_false (fun h => by cases h.verdict) (by decide)

theorem miss_refused_iff {e : KernEvent} (hpath : e.path ≠ [])
    (hdeny : d.pol.MachineDenies (missQuery d e)) :
    MissRefused inp os d e ↔ idChanged d.pol os.env e.path = false := by
  have hiff : eventVerdict os d e = .deny ↔ idChanged d.pol os.env e.path = false := by
    refine (show eventVerdict os d e = .deny ↔ _ from hdeny.judge_iff).trans ?_
    simp [missQuery]
  have hverdict : upcallVerdict os d e = eventVerdict os d e := if_neg hpath
  rw [← hiff]
  constructor
  · intro h
    exact hverdict ▸ h.verdict
  · intro hdenied
    rcases hdrain : drainUpcall inp os d e with ⟨os', d', o⟩
    cases drainUpcall_cases hdrain with
    | @resolved v _ kern hv hr =>
        refine ⟨hverdict.trans hdenied, ?_, ?_, ?_, ?_⟩ <;> rw [hdrain]
        · exact fun p => List.not_mem_nil
        · exact (Os.sameRest_of_resolveAll hr).policy
    | asked hpath hv =>
        rw [hdenied] at hv
        cases hv

/-! ## runs -/

/-- No allow is cached under a key, and no miss that asks about it waits. -/
structure Unallowed (key : VKey) (w : World) : Prop where
  cache : w.os.Cache fun t => t.lookup key ≠ some .allow
  waiters : ∀ d, w.daemon = some d → ∀ e, d.Waits e → ¬ e.Asks key

/-- A miss of a key that is machine-wide denied is judged a deny. -/
theorem MachineDenied.eventVerdict (h : MachineDenied key w (.daemon inp)) (hd : w.daemon = some d)
    (hpc : d.pc = .upcalls) {e : KernEvent} {urx : List KernEvent} (hurx : d.urx = e :: urx)
    (hasks : e.Asks key) : eventVerdict w.os d e = .deny := by
  obtain ⟨hdeny, hid⟩ := (h d hd).1 e urx hpc hurx hasks
  exact hdeny.judge_iff.mpr fun _ heq => Option.some.inj heq ▸ hid

/-- What a step inserts under a key that is machine-wide denied is a deny. -/
theorem Inserts.denied {w₀ : World} {v : KVerdict} (hins : Inserts inp w.os d key v)
    (hinit : w₀.Initial) (hrun : Run World.step FreshIds w₀ w) (hd : w.daemon = some d)
    (hdenied : MachineDenied key w (.daemon inp)) (hinv : Unallowed key w) : v = .deny := by
  cases hins with
  | @answer ans p rx wtr _ hpc hrx hw hq =>
      have hwaits : d.Waits wtr.ev := ⟨p.key, wtr, hw, rfl⟩
      have hasks := (asks_of_queued hinit hrun hd (.inr hwaits) hq).1
      exact absurd hasks (hinv.waiters d hd _ hwaits)
  | @upcall e urx _ _ hpc hurx hv hq =>
      have hknows : d.Knows e := .inl (.inr (hurx ▸ List.mem_cons_self))
      have hnamed := reachable_named ⟨w₀, hinit, hrun⟩ hd hknows
      have hasks := (asks_of_queued hinit hrun hd hknows hq).1
      have hverdict := (hv.resolve_left fun h => hnamed h.1).2
      rw [hdenied.eventVerdict hd hpc hurx hasks] at hverdict
      cases v with
      | allow => cases hverdict
      | deny => rfl
  | @packet pkt src f path _ hpc hpkt hparse hsrc hmode hexe hv hlive =>
      obtain ⟨hdeny, hid⟩ := (hdenied d hd).2 pkt src f path hpc hpkt hparse hexe rfl
      have hslow : slowVerdict d.pol w.os.env d.names f.key = .deny :=
        hdeny.judge_iff.mpr fun e (heq : flowExe w.os.env f.key = some e) => by
          rwa [← Option.some.inj (hexe.symm.trans heq)]
      rw [hv] at hslow
      cases v with
      | allow => cases hslow
      | deny => rfl

theorem step_unallowed {w₀ : World} (hinit : w₀.Initial) (hrun : Run World.step FreshIds w₀ w)
    (hdenied : MachineDenied key w ev) (hstep : w.step ev = some (w', o))
    (hinv : Unallowed key w) : Unallowed key w' := by
  constructor
  · refine step_cache hstep hinv.cache ?_ ?_
    · simp [VCache.lookup, Table.find, Table.empty, Table.findIn]
    · rintro inp d rfl hd key' v hins t memory ht
      obtain heq | ⟨rfl, heq⟩ := t.lookup_cacheInsert memory key' key v
      · rwa [heq]
      · rw [heq, hins.denied hinit hrun hd hdenied hinv]
        simp
  · intro d' hd' e hwaits hasks
    obtain ⟨inp, d, rfl, hd, hmain⟩ | hout := step_cases hstep
    · obtain hwaits | ⟨hpc, ⟨urx, hurx⟩, hask⟩ := hmain.waits hd' hwaits
      · exact hinv.waiters d hd e hwaits hasks
      · rw [hdenied.eventVerdict hd hpc hurx hasks] at hask
        cases hask
    · obtain ⟨d, hd, hwaits⟩ := hout.waits hd' hwaits
      exact hinv.waiters d hd e hwaits hasks

theorem reachable_unallowed
    (hw : Reachable (fun w ev => FreshIds w ev ∧ MachineDenied key w ev) w) : Unallowed key w := by
  obtain ⟨w₀, hinit, hrun⟩ := hw
  induction hrun with
  | refl =>
      refine ⟨fun k hk => ?_, hinit.no_daemon⟩
      rw [hinit.1] at hk
      cases hk
  | tail hrun hok hstep ih =>
      exact step_unallowed hinit (hrun.mono fun _ _ => And.left) hok.2 hstep ih

/-- **What binds a machine-wide deny.**  A packet of a connection that a machine-wide
deny matches is refused exactly when the flow is settled as denied, or is not
settled and its binary has not changed; a miss, exactly when its binary has not
changed.  In a run in which that holds of all that is judged under a key, and which
keeps the ids of a newly loaded module apart, no allow is cached under the key. -/
theorem machine_deny_binds :
    (∀ (inp : Input) (os : Os) (d : Daemon) (pkt : Packet) (src : Sockaddr) (f : Flow),
      Judged pkt src f → d.pol.MachineDenies (flowQuery os.env d.names f.key) →
      (PacketRefused os d (handlePacket inp os d pkt src) ↔
        d.decided.lookup f.key = some .deny ∨ d.decided.lookup f.key = none ∧
          ∀ path, flowExe os.env f.key = some path → idChanged d.pol os.env path = false)) ∧
    (∀ (inp : Input) (os : Os) (d : Daemon) (e : KernEvent), e.path ≠ [] →
      d.pol.MachineDenies (missQuery d e) →
      (MissRefused inp os d e ↔ idChanged d.pol os.env e.path = false)) ∧
    ∀ (key : VKey) (w : World),
      Reachable (fun w ev => FreshIds w ev ∧ MachineDenied key w ev) w →
      w.os.Cache fun t => t.lookup key ≠ some .allow :=
  ⟨fun _ _ _ _ _ _ hjudged hdeny => packet_refused_iff hjudged hdeny,
    fun _ _ _ _ hpath hdeny => miss_refused_iff hpath hdeny,
    fun _ _ hw => (reachable_unallowed hw).cache⟩

omit [Casing] in
/-- Steps that are easily seen to judge nothing but what a `deny-dest` line stops. -/
def DeniedCalm (w : World) : Event → Bool
  | .daemon inp => w.daemon.all fun d =>
      (d.pc != .upcalls || d.urx.all fun e =>
        destMatches d.pol.denyDest e.dst e.dport && !idChanged d.pol w.os.env e.path) &&
      (d.pc != .recv || inp.packet.isNone)
  | _ => true

theorem machineDenied_of_calm (h : DeniedCalm w ev = true) : MachineDenied key w ev := by
  cases ev with
  | daemon inp =>
      intro d hd
      simp only [DeniedCalm, hd, Option.all_some, Bool.and_eq_true, Bool.or_eq_true, bne_iff_ne,
        ne_eq, List.all_eq_true, Bool.not_eq_true', Option.isNone_iff_eq_none] at h
      obtain ⟨hmisses, hpackets⟩ := h
      constructor
      · intro e urx hpc hurx _
        obtain ⟨hdest, hid⟩ :=
          hmisses.resolve_left (not_not.mpr hpc) e (hurx ▸ List.mem_cons_self)
        exact ⟨machineDenies_iff.mpr (.inr hdest), hid⟩
      · intro pkt src f path hpc hpkt
        rw [hpackets.resolve_left (not_not.mpr hpc)] at hpkt
        cases hpkt
  | _ => trivial

omit [Casing] in
/-- A miss of `/a` to port 443 of 192.0.2.1. -/
def missEvent : KernEvent := (⟨1, missKey, false, true, 7, 0, 0⟩ : Req).event

omit [Casing] in
/-- A packet and a miss to 192.0.2.1 under `deny-dest 192.0.2.1` are refused, and in
a run with such a miss a verdict is cached, and it is no allow. -/
theorem machine_deny_binds_refused :
    letI := asciiCasing
    (∃ f, PacketRefused (Os.ownedBy "/a".toList) Daemon.denying
        (handlePacket {} (Os.ownedBy "/a".toList) Daemon.denying
          (udpPacket (.v4 ⟨192, 0, 2, 1⟩) 1024 443) ⟨0, 0⟩) ∧
      parse (udpPacket (.v4 ⟨192, 0, 2, 1⟩) 1024 443) = some f) ∧
    MissRefused {} World.idle.os Daemon.denying missEvent ∧
    ∃ (w : World) (k : KMod), w.os.kmod = some k ∧ (k.cache.lookup missKey).isSome = true ∧
      k.cache.lookup missKey ≠ some .allow := by
  let _ := asciiCasing
  obtain ⟨hpacket, hmiss, hrun⟩ := machine_deny_binds
  refine ⟨?_, ?_, ?_⟩
  · obtain ⟨f, hparse, hproto, hsport, hdst, hdport⟩ :=
      parse_udpPacket (.v4 ⟨192, 0, 2, 1⟩) 1024 443
    have hjudged : Judged (udpPacket (.v4 ⟨192, 0, 2, 1⟩) 1024 443) ⟨0, 0⟩ f :=
      ⟨hparse, fun h => by simp [hsport] at h, rfl, .inr hproto⟩
    refine ⟨f, (hpacket {} _ _ _ _ f hjudged (machineDenies_iff.mpr (.inr ?_))).mpr
      (.inr ⟨rfl, fun path _ => ?_⟩), hparse⟩
    · change destMatches Daemon.denying.pol.denyDest f.dst f.dport = true
      rw [hdst, hdport]
      decide
    · simp [idChanged, Os.ownedBy]
  · refine (hmiss {} _ _ missEvent (by decide) (machineDenies_iff.mpr (.inr ?_))).mpr ?_
    · decide
    · simp [idChanged, World.idle]
  · obtain ⟨w, hw, hp⟩ := exists_reachable_of_exec
      (fun w ev => Forgotten w ev = true ∧ DeniedCalm w ev = true)
      (World.withPolicy "attribution kernel\ndeny-dest 192.0.2.1\n") ⟨rfl, rfl⟩
      (kernelEvents ++ missEvents [443])
      (fun w => w.os.kmod.any fun k => (k.cache.lookup missKey).isSome)
      (by decide +kernel)
    obtain ⟨k, hk, hsome⟩ := (Option.any_eq_true _ _).mp hp
    have hno := hrun missKey w (hw.mono fun _ _ h =>
      ⟨freshIds_of_forgotten h.1, machineDenied_of_calm h.2⟩)
    exact ⟨w, k, hk, hsome, hno k hk⟩

/-- A daemon whose policy pins `/a` and denies 192.0.2.1. -/
def Daemon.pinning : Daemon :=
  { Daemon.new .enforcement 0 with
    pol := .load (some "app-id 00 /a\ndeny-dest 192.0.2.1\n".toList) }

omit [Casing] in
/-- A machine on which `/a` owns every socket, and is not the binary that was pinned. -/
def Os.replaced : Os :=
  { World.idle.os with
    env := ⟨fun _ => some ⟨7, [], "/a".toList, []⟩,
      fun _ => some ⟨"01".toList, by decide, by decide⟩⟩ }

omit [Casing] in
/-- The packet and the miss of a binary that has changed are asked about, although a
`deny-dest` line matches. -/
theorem changed_binary_escapes_deny :
    letI := asciiCasing
    (¬ ∀ (inp : Input) (os : Os) (d : Daemon) (pkt : Packet) (src : Sockaddr) (f : Flow),
      Judged pkt src f → d.pol.MachineDenies (flowQuery os.env d.names f.key) →
      d.decided.lookup f.key = none → PacketRefused os d (handlePacket inp os d pkt src)) ∧
    ¬ ∀ (inp : Input) (os : Os) (d : Daemon) (e : KernEvent), e.path ≠ [] →
      d.pol.MachineDenies (missQuery d e) → MissRefused inp os d e := by
  let _ := asciiCasing
  constructor
  · intro h
    obtain ⟨f, hparse, hproto, hsport, hdst, hdport⟩ :=
      parse_udpPacket (.v4 ⟨192, 0, 2, 1⟩) 1024 443
    have hjudged : Judged (udpPacket (.v4 ⟨192, 0, 2, 1⟩) 1024 443) ⟨0, 0⟩ f :=
      ⟨hparse, fun h => by simp [hsport] at h, rfl, .inr hproto⟩
    have hdeny : Daemon.pinning.pol.MachineDenies
        (flowQuery Os.replaced.env Daemon.pinning.names f.key) := by
      refine machineDenies_iff.mpr (.inr ?_)
      change destMatches Daemon.pinning.pol.denyDest f.dst f.dport = true
      rw [hdst, hdport]
      decide
    have hask : (handlePacket {} Os.replaced Daemon.pinning
        (udpPacket (.v4 ⟨192, 0, 2, 1⟩) 1024 443) ⟨0, 0⟩).used = some .ask := by decide
    have hrefused := (h {} _ _ _ _ f hjudged hdeny rfl).verdict
    rw [hask] at hrefused
    cases hrefused
  · intro h
    have hask : upcallVerdict Os.replaced Daemon.pinning missEvent = .ask := by decide
    have hrefused := (h {} Os.replaced Daemon.pinning missEvent (by decide)
      (machineDenies_iff.mpr (.inr (by decide)))).verdict
    rw [hask] at hrefused
    cases hrefused

end Pfsnitch
