import Pfsnitch.Answers
import Pfsnitch.Orphans
import Pfsnitch.Questions

/-!
# Pfsnitch.Timeout

What a prompt that nobody answers leaves behind.

A timeout records nothing, but the drain resolves the misses that wait for it
all the same, with a deny.  When none of them is still queued in the module, the
timeout changes nothing at all, and the destination is asked about again: what
is then answered with "try again" is on its way to a prompt
(`timeout_persists_nothing`).
-/

namespace Pfsnitch

open Lib

variable [Casing]

/-- A timeout is drained only when no miss that waits for it is still queued. -/
def TimeoutSafe (w : World) : Event → Prop
  | .daemon _ => ∀ d p rx, w.daemon = some d → d.pc = .answers → d.rx = (.timeout, p) :: rx →
      ∀ wtr ∈ d.waiters p.key, ∀ key, ¬ w.os.Queued d.kern wtr.ev.id key
  | _ => True

/-- A step refuses nothing under a key: no block is drained for a miss queued
under it, and the policy denies neither such a miss nor a flow under it. -/
def Unrefused (key : VKey) (w : World) : Event → Prop
  | .daemon inp => ∀ d, w.daemon = some d →
      (∀ ans p rx, d.pc = .answers → d.rx = (ans, p) :: rx → ans = .block ∨ ans = .blockApp →
        ∀ wtr ∈ d.waiters p.key, ¬ w.os.Queued d.kern wtr.ev.id key) ∧
      (∀ ev urx, d.pc = .upcalls → d.urx = ev :: urx → w.os.Queued d.kern ev.id key →
        eventVerdict w.os d ev ≠ .deny) ∧
      ∀ pkt src f path, d.pc = .recv → inp.packet = some (pkt, src) → parse pkt = some f →
        flowExe w.os.env f.key = some path →
        key = ⟨f.proto, f.dst, f.dport, (utf8Bytes path).takeWhile (· ≠ 0)⟩ →
        slowVerdict d.pol w.os.env d.names f.key ≠ .deny
  | _ => True

/-- No deny is cached under a key. -/
def Undenied (key : VKey) (w : World) : Prop :=
  w.os.Cache fun t => t.lookup key ≠ some .deny

/-! ## the drain of a timeout -/

omit [Casing] in
/-- Resolving ids that are not queued changes nothing. -/
theorem resolveAll_of_not_queued {inp : Input} {v : KVerdict} {n : Nat} {ids : List Nat} {os : Os}
    {kern : Option Handle} (h : ∀ id ∈ ids, ∀ key, ¬ os.Queued kern id key) :
    (resolveAll inp v n ids os kern).1 = os := by
  by_cases hlive : os.Live kern
  · obtain ⟨k₀, hk₀⟩ := hlive
    have hnone : ∀ k, os.kmod = some k → ∀ id ∈ ids, ∀ m, k.resolve id v m = k := by
      intro k hk id hid m
      obtain rfl := Option.some.inj (hk₀.kmod.symm.trans hk)
      rcases k₀.resolve_cases id v m with heq | ⟨r, hr, hrid, -⟩
      · exact heq
      · exact absurd ⟨k₀, hk₀, r, hr, hrid, rfl⟩ (h id hid r.key)
    clear h hk₀
    induction ids generalizing n kern with
    | nil => rfl
    | cons id ids ih =>
        have hos : (kernIoctl os kern (inp.ioctl n) fun k => k.resolve id v (inp.memory n)).1 = os := by
          rcases Os.kernIoctl_cases os kern (inp.ioctl n) fun k => k.resolve id v (inp.memory n) with
            ⟨k, hk, -, heq⟩ | ⟨heq, -⟩
          · rw [heq, hnone k hk.kmod id List.mem_cons_self]
            exact congrArg (fun kmod => { os with kmod }) hk.kmod.symm
          · exact heq
        rw [resolveAll_cons, hos]
        exact ih fun k hk id' hid' => hnone k hk id' (List.mem_cons_of_mem _ hid')
  · exact Os.resolveAll_of_not_live hlive

/-- A timeout changes neither the file, nor the policy, nor the module. -/
theorem drainAnswer_timeout (inp : Input) {os : Os} {d : Daemon} {p : Pending}
    (h : ∀ wtr ∈ d.waiters p.key, ∀ key, ¬ os.Queued d.kern wtr.ev.id key) :
    (drainAnswer inp os d .timeout p).1 = os ∧ (drainAnswer inp os d .timeout p).2.pol = d.pol := by
  rcases hdrain : drainAnswer inp os d .timeout p with ⟨os', d'⟩
  obtain ⟨os₁, kern, pol, ls, hr, ha, rfl, rfl⟩ := drainAnswer_cases hdrain
  have hnothing : pol = d.pol ∧ ls = [] := by
    rw [answered_of_entry_none rfl] at ha
    obtain ⟨rfl, rfl⟩ := Prod.mk.inj ha
    exact ⟨rfl, rfl⟩
  have hos₁ : os₁ = os := by
    have hsame : (resolveAll inp (toKVerdict Answer.timeout.approves) 0
        ((d.waiters p.key).map (·.ev.id)) os d.kern).1 = os :=
      resolveAll_of_not_queued fun id hid => by
        obtain ⟨wtr, hw, rfl⟩ := List.mem_map.mp hid
        exact h wtr hw
    rwa [hr] at hsame
  rw [hos₁, hnothing.2]
  exact ⟨by simp [Os.appendPolicy], hnothing.1⟩

/-! ## denies come from refusals -/

/-- With a timeout that is safe, a step that refuses nothing under a key caches
no deny under it. -/
theorem step_undenied {w w' : World} {ev : Event} {o : List Output} {key : VKey}
    (h : w.step ev = some (w', o)) (hsafe : TimeoutSafe w ev) (hno : Unrefused key w ev)
    (hinv : Undenied key w) : Undenied key w' := by
  refine step_cache h hinv (by simp [VCache.lookup, Table.find, Table.empty, Table.findIn]) ?_
  rintro inp d rfl hd key' v hins t memory ht
  have hkey : v = .deny → key' ≠ key := by
    rintro hv rfl
    obtain ⟨hanswers, hevents, hpackets⟩ := hno d hd
    cases hins with
    | @answer ans p rx wtr _ hpc hrx hw hq =>
        cases ans with
        | allowConn | allowApp => cases hv
        | block => exact hanswers _ _ _ hpc hrx (.inl rfl) wtr hw hq
        | blockApp => exact hanswers _ _ _ hpc hrx (.inr rfl) wtr hw hq
        | timeout => exact hsafe d _ _ hd hpc hrx wtr hw _ hq
    | upcall hpc hurx hverdict hq =>
        subst hv
        rcases hverdict with ⟨-, hv⟩ | ⟨-, hv⟩
        · cases hv
        · exact hevents _ _ hpc hurx hq hv
    | packet hpc hpkt hparse hsrc hmode hexe hv' hlive =>
        subst hv
        exact hpackets _ _ _ _ hpc hpkt hparse hexe rfl hv'
  obtain heq | ⟨rfl, heq⟩ := t.lookup_cacheInsert memory key' key v
  · rwa [heq]
  · rw [heq]
    exact fun hdeny => hkey (Option.some.inj hdeny) rfl

/-! ## the destination is asked about again -/

omit [Casing] in
/-- A request is on its way to an answer: a reader is there to take it, or it has
been read and is in transit, or it waits for a prompt that is out. -/
def OnItsWay (w : World) (d : Daemon) (q : Req) : Prop :=
  (q.delivered = false ∧ ∃ s ∈ d.readers, s.started = true ∧ s.gen = w.os.gen) ∨
    (∃ e, d.InTransit e ∧ e.id = q.id) ∨
    ∃ key ∈ d.questions, ∃ wtr ∈ d.waiters key, wtr.ev.id = q.id

omit [Casing] in
/-- A datagram is answered by a cached allow, or put off by a request for its key
that is on its way to an answer, unless the daemon cannot be asked. -/
def AskedAgain (w : World) (d : Daemon) (k : KMod) (key : VKey) (so : Socket) (memory : Bool)
    (now : Nat) : Prop :=
  match k.checkConnect so (.inet key.addr key.fport) memory now with
  | (r, k') => (r = .pass ∧ k.cache.lookup key = some .allow) ∨
      (r = .eagain ∧ ∃ q ∈ k'.reqs, q.key = key ∧ OnItsWay w d q) ∨
      (CannotAsk k memory ∧ r = k.failVerdict)

/-- Where every delivered request is known, and every waiter has a prompt, what a
datagram leaves in the queue is on its way. -/
theorem onItsWay_of_checkConnect {w : World} {d : Daemon} {k : KMod} (hknown : ¬ Orphaned k d)
    (hasked : d.Asked) (hserves : ∃ s ∈ d.readers, s.started = true ∧ s.gen = w.os.gen)
    (so : Socket) (sa : SockAddr) (memory : Bool) (now : Nat) :
    ∀ q ∈ (k.checkConnect so sa memory now).2.reqs, OnItsWay w d q := by
  intro q hq
  cases hdel : q.delivered with
  | false => exact .inl ⟨hdel, hserves⟩
  | true =>
      have hold := k.delivered_of_checkConnect so sa memory now q hq hdel
      obtain ⟨e, htransit | ⟨key, wtr, hwtr, rfl⟩, hid⟩ := not_orphaned_iff.mp hknown q hold hdel
      · exact .inr (.inl ⟨e, htransit, hid⟩)
      · -- a miss that waits has its prompt
        refine .inr (.inr ⟨key, (hasked.asking key).mp (hasked.waiting key ?_), wtr, hwtr, hid⟩)
        by_contra hnone
        rw [Daemon.waiters, AList.lookup_eq_none.mpr hnone] at hwtr
        cases hwtr

/-- With the upcall on, what is not denied in the cache is asked again. -/
theorem askedAgain_of_not_denied {w : World} {d : Daemon} {k : KMod} {key : VKey} {so : Socket}
    {info : PfsnInfo} {memory : Bool} {now : Nat}
    (hway : ∀ q ∈ (k.checkConnect so (.inet key.addr key.fport) memory now).2.reqs, OnItsWay w d q)
    (hup : k.upcallOn = true) (hno : k.cache.lookup key ≠ some .deny)
    (hproto : key.proto = IPPROTO_UDP) (hport : key.fport ≠ 53) (hloop : hookLoopback key.addr = false)
    (hso : so.soType = .dgram) (hlabel : so.label = some info) (hpath : info.path = key.path)
    (hpos : 0 < key.path.length) (hlen : key.path.length < 1024) :
    AskedAgain w d k key so memory now := by
  obtain ⟨proto, addr, fport, path⟩ := key
  simp only at hproto hport hloop hpath hpos hlen hway
  subst hproto hpath
  have hne : info.path ≠ [] := List.length_pos_iff.mp hpos
  rw [checkConnect_dgram hso hlabel hne hloop] at hway
  rw [AskedAgain, checkConnect_dgram hso hlabel hne hloop]
  cases hc : k.cache.lookup ⟨IPPROTO_UDP, addr, fport, info.path⟩ with
  | some v =>
      cases v with
      | allow => exact .inl ⟨rfl, rfl⟩
      | deny => exact absurd hc hno
  | none =>
      simp only [hc, hup, hport, ne_eq, not_false_eq_true, and_self, if_true] at hway ⊢
      obtain ⟨hagain, q, hq, hkey⟩ | hcannot :=
        upcall_asks k IPPROTO_UDP addr fport so.nbio memory now hpos hlen
      · exact .inr (.inl ⟨hagain, q, hq, hkey, hway q hq⟩)
      · exact .inr (.inr hcannot)

/-- The main thread takes a timeout off its answers. -/
theorem step_timeout {w w' : World} {d : Daemon} (hd : w.daemon = some d) (hpc : d.pc = .answers)
    {p : Pending} {rx : List (Answer × Pending)} (hrx : d.rx = (.timeout, p) :: rx) {inp : Input}
    {o : List Output} (hsafe : TimeoutSafe w (.daemon inp))
    (hstep : w.step (.daemon inp) = some (w', o)) :
    w'.os = w.os ∧ ∃ d', w'.daemon = some d' ∧ d'.pol = d.pol := by
  rw [step_answer hd hpc hrx, Option.some.injEq, Prod.mk.injEq] at hstep
  obtain ⟨rfl, -⟩ := hstep
  obtain ⟨hos, hpol⟩ := drainAnswer_timeout inp (d := { d with rx }) (hsafe d p rx hd hpc hrx)
  exact ⟨hos, _, rfl, hpol⟩

/-- **A timeout persists nothing.**  In a run whose timeouts meet no queued miss
and that loses no request, a timeout leaves the policy file, the policy, the
module and everything else around the daemon as it is, and a key that was not
denied before is not answered from a cached deny after: as long as nothing is
refused under it, the next datagram is asked about again. -/
theorem timeout_persists_nothing {w w' : World} (hw : Reachable Accounted w) {d : Daemon}
    (hd : w.daemon = some d) (hpc : d.pc = .answers) {p : Pending} {rx : List (Answer × Pending)}
    (hrx : d.rx = (.timeout, p) :: rx) {inp : Input} {o : List Output}
    (hsafe : TimeoutSafe w (.daemon inp)) (hok : Accounted w (.daemon inp))
    (hstep : w.step (.daemon inp) = some (w', o)) :
    w'.os = w.os ∧ (∃ d', w'.daemon = some d' ∧ d'.pol = d.pol) ∧
      ∀ key, Undenied key w → ∀ w'',
        Run World.step (fun w ev => Accounted w ev ∧ TimeoutSafe w ev ∧ Unrefused key w ev) w' w'' →
        Undenied key w'' ∧ ∀ k d so info memory now, w''.os.kmod = some k → k.upcallOn = true →
          w''.daemon = some d → (∃ s ∈ d.readers, s.started = true ∧ s.gen = w''.os.gen) →
          key.proto = IPPROTO_UDP → key.fport ≠ 53 → hookLoopback key.addr = false →
          so.soType = .dgram → so.label = some info → info.path = key.path →
          0 < key.path.length → key.path.length < 1024 →
          AskedAgain w'' d k key so memory now := by
  obtain ⟨hos, hpol⟩ := step_timeout hd hpc hrx hsafe hstep
  refine ⟨hos, hpol, fun key hundenied w'' hrun => ?_⟩
  have hw' : Undenied key w' := by
    rw [Undenied, hos]
    exact hundenied
  have hw'' : Undenied key w'' := hrun.invariant hw' fun _ _ _ _ hinv hok hstep =>
    step_undenied hstep hok.2.1 hok.2.2 hinv
  have hreach : Reachable Accounted w'' := by
    obtain ⟨w₀, hinit, hrun₀⟩ := hw
    exact ⟨w₀, hinit, (hrun₀.tail hok hstep).trans (hrun.mono fun _ _ => And.left)⟩
  refine ⟨hw'', fun k d so info memory now hk hup hd hserves hproto hport hloop hso hlabel hpath
    hpos hlen => ?_⟩
  obtain ⟨d₁, hd₁, -, hknown⟩ := reachable_served hreach k hk hup
  obtain rfl := Option.some.inj (hd.symm.trans hd₁)
  exact askedAgain_of_not_denied
    (onItsWay_of_checkConnect hknown (reachable_asked hreach hd) hserves so _ memory now)
    hup (hw'' k hk) hproto hport hloop hso hlabel hpath hpos hlen

omit [Casing] in
/-- The timeouts that are about to be drained. -/
def timedOut (w : World) : List (Daemon × Pending × List (Answer × Pending)) :=
  match w.daemon with
  | some d =>
    match d.pc, d.rx with
    | .answers, (.timeout, p) :: rx => [(d, p, rx)]
    | _, _ => []
  | none => []

omit [Casing] in
theorem mem_timedOut {w : World} {d : Daemon} {p : Pending} {rx : List (Answer × Pending)}
    (h : (d, p, rx) ∈ timedOut w) :
    w.daemon = some d ∧ d.pc = .answers ∧ d.rx = (.timeout, p) :: rx := by
  unfold timedOut at h
  split at h
  · rename_i hd
    split at h
    · rename_i hpc hrx
      cases List.mem_singleton.mp h
      exact ⟨hd, hpc, hrx⟩
    · cases h
  · cases h

omit [Casing] in
/-- `/a` sends to port 443, and when its request has outlived its time in the queue,
a datagram to port 80 has it swept; then the prompt ends without an answer. -/
def sweptEvents : List Event :=
  kernelEvents ++ missEvents [443] ++
    [.wait 151000, sendEvent 80, .promptDone 0 .timeout, .daemon {}]

omit [Casing] in
theorem untroubled_sweptEvents : ∀ ev ∈ sweptEvents, Untroubled ev := by
  intro ev hev
  simp only [sweptEvents, List.mem_append, List.mem_cons, List.not_mem_nil, or_false] at hev
  obtain (hev | hev) | rfl | rfl | rfl | rfl := hev
  · exact untroubled_kernelEvents ev hev
  · exact untroubled_missEvents _ ev hev
  all_goals first | trivial | exact ⟨fun _ => rfl, rfl⟩

omit [Casing] in
/-- `/a` sends to port 443 again, and the reader comes to its request. -/
def retryEvents : List Event :=
  [sendEvent 443, .readerRead 0 false, .readerSend 0, .readerRead 0 false]

omit [Casing] in
/-- Not a step of the main thread. -/
def Aside : Event → Bool
  | .daemon _ => false
  | _ => true

theorem aside_harmless {w : World} {ev : Event} {key : VKey} (h : Aside ev = true) :
    Accounted w ev ∧ TimeoutSafe w ev ∧ Unrefused key w ev := by
  cases ev with
  | daemon => cases h
  | _ => exact ⟨trivial, trivial, trivial⟩

/-- A timeout whose misses are not queued is safe. -/
theorem timeoutSafe_of_timedOut {w : World} {d : Daemon} {p : Pending}
    {rx : List (Answer × Pending)} (hx : (d, p, rx) ∈ timedOut w)
    (h : ∀ k, w.os.kmod = some k → ∀ r ∈ k.reqs, ∀ wtr ∈ d.waiters p.key, r.id ≠ wtr.ev.id)
    (inp : Input) : TimeoutSafe w (.daemon inp) := by
  obtain ⟨hd, -, hrx⟩ := mem_timedOut hx
  rintro d₁ p₁ rx₁ hd₁ - hrx₁ wtr hwtr key ⟨k, hdev, r, hr, hid, -⟩
  obtain rfl := Option.some.inj (hd.symm.trans hd₁)
  obtain ⟨⟨-, rfl⟩, -⟩ := by simpa using hrx.symm.trans hrx₁
  exact h k hdev.kmod r hr wtr hwtr hid

omit [Casing] in
/-- Once the request is swept the timeout is harmless, and the next datagram of the
same binary is asked about again: the reader carries its request. -/
theorem timeout_persists_nothing_swept :
    letI := asciiCasing
    ∃ (w w' w'' : World) (d : Daemon) (k : KMod) (so : Socket), Reachable Accounted w ∧
      w.step (.daemon {}) = some (w', []) ∧ w'.os = w.os ∧
      Run World.step (fun _ ev => ev ∈ retryEvents) w' w'' ∧ w''.os.kmod = some k ∧
      w''.daemon = some d ∧ k.upcallOn = true ∧ k.cache.lookup missKey = none ∧
      AskedAgain w'' d k missKey so true 200 := by
  let _ := asciiCasing
  obtain ⟨w, hw, hp⟩ := exists_reachable_by_exec (fun w ev => AccountedCalm w ev = true)
    (World.withPolicy "attribution kernel\n") ⟨rfl, rfl⟩ sweptEvents
    (fun w => AccountedCalm w (.daemon {}) && (timedOut w).any fun (d, p, _) =>
      (w.os.kmod.all fun k => decide (k.cache.lookup missKey = none) && k.reqs.all fun r =>
        (d.waiters p.key).all fun wtr : Waiter => decide (r.id ≠ wtr.ev.id)) &&
      (w.step (.daemon {})).any fun s =>
        (exec World.step (fun _ ev => Aside ev = true) s.1 retryEvents).any fun w'' =>
          (w''.os.kmod.any fun k => k.upcallOn && decide (k.cache.lookup missKey = none)) &&
            w''.daemon.any fun d => d.readers.any fun s => s.started && decide (s.gen = w''.os.gen))
    (by decide +kernel)
  have hreach : Reachable Accounted w :=
    hw.mono fun _ ev h => accounted_of_calm (untroubled_sweptEvents ev h.2) h.1
  rw [Bool.and_eq_true] at hp
  obtain ⟨hcalm, hp⟩ := hp
  obtain ⟨⟨d, p, rx⟩, hx, hp⟩ := List.any_eq_true.mp hp
  rw [Bool.and_eq_true] at hp
  obtain ⟨hclear, hp⟩ := hp
  obtain ⟨hd, hpc, hrx⟩ := mem_timedOut hx
  obtain ⟨⟨w', o⟩, hstep, hp⟩ := (Option.any_eq_true _ _).mp hp
  obtain ⟨w'', hrun, hp⟩ := exists_run_of_exec hp
  rw [Bool.and_eq_true] at hp
  obtain ⟨⟨k, hk, hon⟩, d', hd', hserves⟩ :=
    hp.imp (Option.any_eq_true _ _).mp (Option.any_eq_true _ _).mp
  rw [Bool.and_eq_true, decide_eq_true_eq] at hon
  obtain ⟨s, hs, hserves⟩ := List.any_eq_true.mp hserves
  rw [Bool.and_eq_true, decide_eq_true_eq] at hserves
  have hfacts : ∀ k, w.os.kmod = some k → k.cache.lookup missKey = none ∧
      ∀ r ∈ k.reqs, ∀ wtr ∈ d.waiters p.key, r.id ≠ wtr.ev.id := by
    intro k hk
    simpa [hk] using hclear
  have hundenied : Undenied missKey w := by
    intro k hk hdeny
    rw [(hfacts k hk).1] at hdeny
    cases hdeny
  obtain ⟨hos, -, hnext⟩ := timeout_persists_nothing hreach hd hpc hrx
    (timeoutSafe_of_timedOut hx (fun k hk => (hfacts k hk).2) {})
    (accounted_of_calm ⟨fun _ => rfl, rfl⟩ hcalm) hstep
  obtain ⟨-, hagain⟩ := hnext missKey hundenied w'' (hrun.mono fun _ _ h => aside_harmless h.1)
  have hout : o = [] := by
    rw [step_answer hd hpc hrx, Option.some.injEq, Prod.mk.injEq] at hstep
    exact hstep.2.symm
  refine ⟨w, w', w'', d', k, ⟨.dgram, some ⟨7, 0, [0x2f, 0x61]⟩, false⟩, hreach, hout ▸ hstep, hos,
    hrun.mono fun _ _ => And.right, hk, hd', hon.1, hon.2, ?_⟩
  exact hagain k d' _ _ true 200 hk hon.1 hd' ⟨s, hs, hserves⟩ rfl (by decide) rfl rfl rfl rfl
    (by decide) (by decide)

omit [Casing] in
/-- While the miss is still queued, the timeout caches a deny for it. -/
theorem timeout_caches_deny :
    letI := asciiCasing
    ¬ ∀ (w w' : World) (d : Daemon) (p : Pending) (rx : List (Answer × Pending)) (inp : Input)
      (o : List Output), Reachable (fun _ _ => True) w → w.daemon = some d → d.pc = .answers →
      d.rx = (.timeout, p) :: rx → w.step (.daemon inp) = some (w', o) →
      ∀ key, Undenied key w → Undenied key w' := by
  let _ := asciiCasing
  intro h
  obtain ⟨w, hw, hp⟩ := exists_reachable_of_exec (fun _ _ => True)
    (World.withPolicy "attribution kernel\n") ⟨rfl, rfl⟩
    (kernelEvents ++ missEvents [443] ++ [.promptDone 0 .timeout, .daemon {}])
    (fun w => (w.os.kmod.all fun k => k.cache.lookup missKey = none) &&
      (timedOut w).any fun (d, p, rx) =>
        (drainAnswer {} w.os { d with rx } .timeout p).1.kmod.any fun k =>
          k.cache.lookup missKey = some .deny)
    (by decide +kernel)
  rw [Bool.and_eq_true] at hp
  obtain ⟨hnone, hdeny⟩ := hp
  obtain ⟨⟨d, p, rx⟩, hx, hdeny⟩ := List.any_eq_true.mp hdeny
  obtain ⟨k', hk', hdeny⟩ := (Option.any_eq_true _ _).mp hdeny
  obtain ⟨hd, hpc, hrx⟩ := mem_timedOut hx
  have hundenied : Undenied missKey w := by
    intro k hk heq
    simp [hk, heq] at hnone
  exact h w _ d p rx {} [] hw hd hpc hrx (step_answer hd hpc hrx {}) missKey hundenied k' hk'
    (of_decide_eq_true hdeny)

end Pfsnitch
