import Pfsnitch.Daemon.Cache

/-!
# Pfsnitch.Answers

What an answer settles.

Misses that wait for the same prompt share a binary and a destination, not a
port.  One answer resolves them all, but the rule it records names the port of
the prompt.  `answer_warranted_iff` says for which of the waiting misses the
recorded policy gives the verdict they are resolved with.
-/

namespace Pfsnitch

open Lib

variable [Casing]

/-! ## the misses that wait for a prompt -/

/-- A waiter is filed under the question its event raises. -/
def Waiter.Filed (wtr : Waiter) (key : AskKey) : Prop :=
  wtr.ev.path ≠ [] ∧ key = (wtr.ev.path, askKey (nonEmpty (wtr.host.getD [])) wtr.ev.dst)

/-- Every waiter is filed under its question. -/
def AllFiled (w : World) : Prop :=
  ∀ d, w.daemon = some d → ∀ key, ∀ wtr ∈ d.waiters key, wtr.Filed key

omit [Casing] in
theorem mem_waiters_erase {d : Daemon} {key key' : AskKey} {wtr : Waiter}
    (h : wtr ∈ ({ d with pendingUpcalls := d.pendingUpcalls.erase key' } : Daemon).waiters key) :
    wtr ∈ d.waiters key := by
  by_cases hkey : key = key'
  · subst hkey
    simp [Daemon.waiters, AList.lookup_erase] at h
  · simpa [Daemon.waiters, AList.lookup_erase_ne hkey] using h

omit [Casing] in
theorem mem_waiters_addWaiter {d : Daemon} {key key' : AskKey} {wtr wtr' : Waiter}
    (h : wtr ∈ (addWaiter d key' wtr').waiters key) :
    wtr ∈ d.waiters key ∨ (key = key' ∧ wtr = wtr') := by
  by_cases hkey : key = key'
  · subst hkey
    simp only [Daemon.waiters, addWaiter, AList.lookup_insert, Option.getD_some,
      List.mem_append, List.mem_singleton] at h
    exact h.imp_right fun h => ⟨rfl, h⟩
  · left
    simpa [Daemon.waiters, addWaiter, AList.lookup_insert_ne hkey] using h

/-- Every step keeps the waiters filed. -/
theorem step_allFiled {w w' : World} {ev : Event} {o : List Output} (h : w.step ev = some (w', o))
    (hinv : AllFiled w) : AllFiled w' := by
  obtain ⟨inp, d, rfl, hd, hmain⟩ | hout := step_cases h
  · have hd' := hinv d hd
    intro d₁ hd₁
    cases hmain with
    | moves hm =>
        obtain rfl := Option.some.inj hd₁
        exact hd'
    | exits hpc => cases hd₁
    | answer hpc hrx hdrain =>
        obtain rfl := Option.some.inj hd₁
        obtain ⟨_, _, _, _, -, -, -, rfl⟩ := drainAnswer_cases hdrain
        exact fun key wtr hw => hd' key wtr (mem_waiters_erase hw)
    | upcall hpc hurx hdrain =>
        obtain rfl := Option.some.inj hd₁
        cases drainUpcall_cases hdrain with
        | resolved hv hr => exact hd'
        | asked hpath hv hraise =>
            obtain ⟨⟨_, _, rfl⟩, -⟩ := raise_cases hraise
            intro key wtr hw
            obtain hw | ⟨rfl, rfl⟩ := mem_waiters_addWaiter hw
            · exact hd' key wtr hw
            · exact ⟨hpath, rfl⟩
    | @effect op _ _ _ _ _ hpc hop =>
        obtain ⟨d₂, rfl, rfl⟩ := Option.map_eq_some_iff.mp hd₁
        intro key wtr hw
        by_cases hoff : op = .markOff
        · subst hoff
          simp only [Op.run, Prod.mk.injEq, Option.some.injEq] at hop
          obtain ⟨-, rfl, -⟩ := hop
          simp [Daemon.waiters] at hw
        · refine hd' key wtr ?_
          simpa only [Daemon.waiters, (Op.run_keeps hop).pendingUpcalls hoff] using hw
    | packet hpc hpkt hr =>
        obtain rfl := Option.some.inj hd₁
        obtain ⟨_, _, _, _, _, _, hsame⟩ := (hr ▸ handlePacket_cases inp w.os d _ _).frame
        intro key wtr hw
        refine hd' key wtr ?_
        simpa only [Daemon.waiters, hsame] using hw
  · obtain hnone | ⟨fallback, -, hnew⟩ | ⟨d, d', hd, hd', _, _, _, _, _, rfl⟩ := hout.daemon
    · intro d hd
      simp [hnone] at hd
    · intro d hd key wtr hw
      obtain rfl := Option.some.inj (hnew.symm.trans hd)
      simp [Daemon.new, Daemon.waiters] at hw
    · intro d₁ hd₁
      obtain rfl := Option.some.inj (hd'.symm.trans hd₁)
      exact hinv d hd

theorem reachable_allFiled {ok : World → Event → Prop} {w : World} (h : Reachable ok w) :
    AllFiled w := by
  obtain ⟨w₀, hinit, hrun⟩ := h
  exact hrun.invariant hinit.no_daemon fun _ _ _ _ hinv _ hstep => step_allFiled hstep hinv

/-! ## what an answer warrants -/

/-- The question a miss puts to the policy. -/
def Waiter.query (wtr : Waiter) : Query :=
  ⟨some wtr.ev.path, wtr.ev.dst, wtr.host, wtr.ev.dport⟩

/-- The policy gives the verdict a waiter is resolved with: an allow after an
approval, a deny after a block. -/
def Warranted (ans : Answer) (pol : Policy) (wtr : Waiter) : Prop :=
  (ans.approves = true →
      pol.decide wtr.query.exe wtr.query.dst wtr.query.host wtr.query.dport = .allow) ∧
    (ans = .block ∨ ans = .blockApp →
      pol.decide wtr.query.exe wtr.query.dst wtr.query.host wtr.query.dport = .deny)

/-- The rule for the prompt's destination is about the waiter's: the port is
the same, and the waiter has a name when the prompt has one, or else its address. -/
def SameTarget (p : Pending) (wtr : Waiter) : Prop :=
  p.dport = wtr.ev.dport ∧
    if (namedHost p.host).isSome then (namedHost wtr.host).isSome = true else p.dst = wtr.ev.dst

/-- When an answer warrants the verdict of a waiter: an approval must meet no
deny rule, and an answer about one destination must be about the waiter's,
unless the policy already decides so. -/
def Covered (pol : Policy) (p : Pending) (wtr : Waiter) : Answer → Prop
  | .allowConn => ¬ pol.Covers .deny wtr.query ∧ (SameTarget p wtr ∨
      pol.decide wtr.query.exe wtr.query.dst wtr.query.host wtr.query.dport = .allow)
  | .allowApp => ¬ pol.Covers .deny wtr.query
  | .block => SameTarget p wtr ∨
      pol.decide wtr.query.exe wtr.query.dst wtr.query.host wtr.query.dport = .deny
  | .blockApp | .timeout => True

omit [Casing] in
theorem namedHost_nonEmpty (host : Option Str) :
    namedHost (nonEmpty (host.getD [])) = namedHost host := by
  cases host with
  | none => rfl
  | some h =>
      by_cases hh : h = []
      · subst hh
        decide
      · simp [nonEmpty, hh]

omit [Casing] in
theorem showIpAddr_ne_nil (a : IpAddr) : showIpAddr a ≠ [] := by
  intro h
  have hparse := parseIpAddr_show a
  have hnil : parseIpAddr [] = none := by decide
  simp [h, hnil] at hparse

omit [Casing] in
theorem showIpAddr_no_star (a : IpAddr) : '*' ∉ showIpAddr a ∧ '-' ∉ showIpAddr a :=
  ⟨fun h => absurd (mem_showIpAddr h) (by decide), fun h => absurd (mem_showIpAddr h) (by decide)⟩

/-- An address text is no pattern for a host that has no name. -/
theorem not_hostCovers_showIpAddr {a : IpAddr} {host : Option Str} (h : namedHost host = none) :
    ¬ HostCovers (showIpAddr a) host := by
  rintro ⟨x, rfl, hmatch⟩
  have hx : x = [] ∨ x = ['-'] := by
    by_contra hno
    simp [namedHost, not_or.mp hno] at h
  have hlower : lower x = x := by
    rcases hx with rfl | rfl <;> rw [Casing.lower_ascii _ (by decide)] <;> rfl
  rw [hlower] at hmatch
  simp only [patternMatches] at hmatch
  split at hmatch
  · rename_i heq
    rcases hx with rfl | rfl
    · exact showIpAddr_ne_nil a heq
    · exact (showIpAddr_no_star a).2 (by simp [heq])
  · split at hmatch
    · rename_i suffix hstrip
      exact (showIpAddr_no_star a).1 (by simp [stripPrefix_eq_some hstrip])
    · cases hmatch

/-- A prompt with a waiter was raised for the waiter's binary. -/
theorem Waiter.Filed.exe {p : Pending} {wtr : Waiter} (h : wtr.Filed p.key) :
    p.exe = some wtr.ev.path := by
  obtain ⟨hpath, hkey⟩ := h
  have hexe : p.exe.getD [] = wtr.ev.path := congrArg Prod.fst hkey
  cases hp : p.exe with
  | none =>
      rw [hp] at hexe
      exact absurd hexe.symm hpath
  | some x => simpa [hp] using hexe

/-- The rule an answer about one connection records covers a waiter exactly when
the two have the same target. -/
theorem connEntry_covers {ans : Answer} {p : Pending} {wtr : Waiter} (hfiled : wtr.Filed p.key)
    {e : Entry} (hans : ans = .allowConn ∨ ans = .block)
    (he : answerEntry ans p.exe p.dst p.host p.dport = some e) :
    e.scope.Covers wtr.query ↔ SameTarget p wtr := by
  have hexe := hfiled.exe
  have hdest : askKey p.host p.dst = askKey (nonEmpty (wtr.host.getD [])) wtr.ev.dst :=
    congrArg Prod.snd hfiled.2
  simp only [askKey, namedHost_nonEmpty] at hdest
  have hscope : e.scope = (namedHost p.host).elim (.destFrom wtr.ev.path p.dst (some p.dport))
      fun h => .hostFrom wtr.ev.path (lower h) (some p.dport) := by
    rcases hans with rfl | rfl <;> obtain rfl := Option.some.inj he <;> simp only [hexe] <;>
      cases namedHost p.host <;> rfl
  rw [hscope, SameTarget]
  cases hp : namedHost p.host with
  | none =>
      -- the rule is written with the address
      simp only [Option.elim_none, Scope.Covers, Waiter.query, portOk, beq_iff_eq, true_and,
        Option.isSome_none, Bool.false_eq_true, if_false]
      exact ⟨fun h => ⟨h.2, h.1.symm⟩, fun h => ⟨h.2.symm, h.1⟩⟩
  | some h =>
      rw [hp] at hdest
      cases hw : namedHost wtr.host with
      | none =>
          simp only [hw] at hdest
          have hno := not_hostCovers_showIpAddr (a := wtr.ev.dst) hw
          rw [← hdest] at hno
          simp [Scope.Covers, Waiter.query, hno]
      | some h' =>
          simp only [hw] at hdest
          have hhost : wtr.host = some h' := (Option.filter_eq_some_iff.mp hw).1
          have hcov : HostCovers (lower h) wtr.host :=
            ⟨h', hhost, by simp [patternMatches, hdest]⟩
          simp [Scope.Covers, Waiter.query, hcov, portOk]

/-- Recording an answer warrants the verdict of a waiter exactly when the answer
covers it. -/
theorem warranted_iff {pol : Policy} {pins : Str → Option Str} {ans : Answer} {p : Pending}
    {wtr : Waiter} (hfiled : wtr.Filed p.key) :
    Warranted ans (match answerEntry ans p.exe p.dst p.host p.dport with
      | some e => { pol with appId := pins }.insert e
      | none => { pol with appId := pins }) wtr ↔ Covered pol p wtr ans := by
  have hexe := hfiled.exe
  cases ans with
  | timeout => simp [Warranted, Covered, Answer.approves]
  | allowConn =>
      obtain ⟨e, he⟩ : ∃ e, answerEntry .allowConn p.exe p.dst p.host p.dport = some e := ⟨_, rfl⟩
      have hallow := Policy.decide_insert_allow (p := { pol with appId := pins }) (q := wtr.query)
        (allowConn_entry he).1
      rw [connEntry_covers hfiled (.inl rfl) he] at hallow
      simp only [he, Warranted, Answer.approves, Covered, forall_true_left, reduceCtorEq, or_self,
        false_implies, and_true]
      exact hallow
  | allowApp =>
      have he : answerEntry .allowApp p.exe p.dst p.host p.dport =
          some ⟨.allow, .app wtr.ev.path⟩ := by simp [answerEntry, hexe]
      have hallow := Policy.decide_insert_allow (p := { pol with appId := pins }) (q := wtr.query)
        (e := ⟨.allow, .app wtr.ev.path⟩) rfl
      have hcov : (Scope.app wtr.ev.path).Covers wtr.query := rfl
      simp only [he, Warranted, Answer.approves, Covered, forall_true_left, reduceCtorEq, or_self,
        false_implies, and_true]
      exact hallow.trans (and_iff_left (.inl hcov))
  | block =>
      obtain ⟨e, he⟩ : ∃ e, answerEntry .block p.exe p.dst p.host p.dport = some e := ⟨_, rfl⟩
      have hdeny := Policy.decide_insert_deny (p := { pol with appId := pins }) (q := wtr.query)
        (block_entry he)
      rw [connEntry_covers hfiled (.inr rfl) he] at hdeny
      simp only [he, Warranted, Answer.approves, Covered, Bool.false_eq_true, false_implies,
        true_or, forall_true_left, true_and]
      exact hdeny
  | blockApp =>
      have he : answerEntry .blockApp p.exe p.dst p.host p.dport =
          some ⟨.deny, .app wtr.ev.path⟩ := by simp [answerEntry, hexe]
      have hdeny := Policy.decide_insert_deny (p := { pol with appId := pins }) (q := wtr.query)
        (e := ⟨.deny, .app wtr.ev.path⟩) rfl
      have hcov : (Scope.app wtr.ev.path).Covers wtr.query := rfl
      simp only [he, Warranted, Answer.approves, Covered, Bool.false_eq_true, false_implies,
        or_true, forall_true_left, true_and, iff_true]
      exact hdeny.mpr (.inl hcov)

/-- The main thread takes the first answer. -/
theorem step_answer {w : World} {d : Daemon} (hd : w.daemon = some d) (hpc : d.pc = .answers)
    {ans : Answer} {p : Pending} {rx : List (Answer × Pending)} (hrx : d.rx = (ans, p) :: rx)
    (inp : Input) : w.step (.daemon inp) =
      some (⟨(drainAnswer inp w.os { d with rx } ans p).1,
        some (drainAnswer inp w.os { d with rx } ans p).2⟩, []) := by
  simp [World.step, hd, Daemon.step, hpc, hrx]

/-- **What an answer settles.**  In every reachable state in which an answer is
drained, a waiting miss is resolved with the verdict of the recorded policy
exactly when the answer covers it. -/
theorem answer_warranted_iff {w w' : World} (hw : Reachable (fun _ _ => True) w) {d d' : Daemon}
    (hd : w.daemon = some d) (hpc : d.pc = .answers) {ans : Answer} {p : Pending}
    {rx : List (Answer × Pending)} (hrx : d.rx = (ans, p) :: rx) {wtr : Waiter}
    (hwtr : wtr ∈ d.waiters p.key) {inp : Input} {o : List Output}
    (hstep : w.step (.daemon inp) = some (w', o)) (hd' : w'.daemon = some d') :
    Warranted ans d'.pol wtr ↔ Covered d.pol p wtr ans := by
  have hfiled := reachable_allFiled hw d hd p.key wtr hwtr
  rw [step_answer hd hpc hrx, Option.some.injEq, Prod.mk.injEq] at hstep
  obtain ⟨rfl, -⟩ := hstep
  obtain ⟨_, _, pol, ls, -, ha, -, hdrain⟩ := drainAnswer_cases (d := { d with rx })
    (rfl : drainAnswer inp w.os { d with rx } ans p = (_, _))
  obtain rfl := (Option.some.inj hd').symm.trans hdrain
  obtain ⟨pins, hpins⟩ := repin_frame d.pol ans p.exe (p.exe.bind w.os.env.hash)
  have hpol : pol = match answerEntry ans p.exe p.dst p.host p.dport with
      | some e => { d.pol with appId := pins }.insert e
      | none => { d.pol with appId := pins } := by
    rw [← hpins]
    exact (congrArg Prod.fst ha).symm.trans answered_eq
  change Warranted ans pol wtr ↔ _
  rw [hpol]
  exact warranted_iff hfiled

omit [Casing] in
/-- Two misses wait for one prompt, and its answer is about to be drained. -/
def answerEvents (ans : Answer) : List Event :=
  kernelEvents ++ missEvents [443, 8443] ++ [.promptDone 0 ans, .daemon {}]

omit [Casing] in
/-- The misses that wait for the answer to be drained next. -/
def answered (w : World) : List (Daemon × Answer × Pending × List (Answer × Pending) × Waiter) :=
  match w.daemon with
  | some d =>
    if d.pc = .answers then
      letI := asciiCasing
      match d.rx with
      | (ans, p) :: rx => (d.waiters p.key).map fun wtr => (d, ans, p, rx, wtr)
      | [] => []
    else []
  | none => []

omit [Casing] in
theorem mem_answered {w : World} {d : Daemon} {ans : Answer} {p : Pending}
    {rx : List (Answer × Pending)} {wtr : Waiter} (h : (d, ans, p, rx, wtr) ∈ answered w) :
    letI := asciiCasing
    w.daemon = some d ∧ d.pc = .answers ∧ d.rx = (ans, p) :: rx ∧ wtr ∈ d.waiters p.key := by
  unfold answered at h
  split at h
  · rename_i hd
    split at h
    · rename_i hpc
      split at h
      · rename_i hrx
        obtain ⟨_, hw, heq⟩ := List.mem_map.mp h
        cases heq
        exact ⟨hd, hpc, hrx, hw⟩
      · cases h
    · cases h
  · cases h

omit [Casing] in
/-- Blocking the binary denies what every waiter asked for. -/
theorem answer_warranted_blockApp :
    letI := asciiCasing
    ∃ (w w' : World) (d' : Daemon) (wtr : Waiter), w.step (.daemon {}) = some (w', []) ∧
      w'.daemon = some d' ∧ wtr.ev.dport = 8443 ∧ Warranted .blockApp d'.pol wtr := by
  let _ := asciiCasing
  obtain ⟨w, hw, hp⟩ := exists_reachable_of_exec (fun _ _ => True)
    (World.withPolicy "attribution kernel\n") ⟨rfl, rfl⟩ (answerEvents .blockApp)
    (fun w => (answered w).any fun x => x.2.1 = .blockApp ∧ x.2.2.2.2.ev.dport = 8443)
    (by decide +kernel)
  obtain ⟨⟨d, ans, p, rx, wtr⟩, hx, hp⟩ := List.any_eq_true.mp hp
  rw [decide_eq_true_eq] at hp
  obtain ⟨rfl, hport⟩ := hp
  obtain ⟨hd, hpc, hrx, hwtr⟩ := mem_answered hx
  have hstep := step_answer hd hpc hrx {}
  exact ⟨w, _, _, wtr, hstep, rfl, hport,
    (answer_warranted_iff hw hd hpc hrx hwtr hstep rfl).mpr trivial⟩

omit [Casing] in
/-- Approving one port resolves the miss of another with an allow that the
recorded policy does not give. -/
theorem answer_allows_other_port :
    letI := asciiCasing
    ¬ ∀ (w w' : World) (d d' : Daemon) (ans : Answer) (p : Pending) (rx : List (Answer × Pending))
      (wtr : Waiter) (inp : Input) (o : List Output), Reachable (fun _ _ => True) w →
      w.daemon = some d → d.pc = .answers → d.rx = (ans, p) :: rx → wtr ∈ d.waiters p.key →
      w.step (.daemon inp) = some (w', o) → w'.daemon = some d' → Warranted ans d'.pol wtr := by
  let _ := asciiCasing
  intro h
  obtain ⟨w, hw, hp⟩ := exists_reachable_of_exec (fun _ _ => True)
    (World.withPolicy "attribution kernel\n") ⟨rfl, rfl⟩ (answerEvents .allowConn)
    (fun w => (answered w).any fun (d, ans, p, rx, wtr) => ans.approves ∧
      (drainAnswer {} w.os { d with rx } ans p).2.pol.decide wtr.query.exe wtr.query.dst
        wtr.query.host wtr.query.dport ≠ .allow)
    (by decide +kernel)
  obtain ⟨⟨d, ans, p, rx, wtr⟩, hx, hp⟩ := List.any_eq_true.mp hp
  rw [decide_eq_true_eq] at hp
  obtain ⟨hd, hpc, hrx, hwtr⟩ := mem_answered hx
  exact hp.2 ((h w _ d _ ans p rx wtr {} [] hw hd hpc hrx hwtr (step_answer hd hpc hrx {}) rfl).1
    hp.1)

end Pfsnitch
