import Pfsnitch.Daemon.Attributed
import Pfsnitch.Daemon.Live
import Pfsnitch.Enforcement
import Pfsnitch.Policy.Reload

/-!
# Pfsnitch.FastPath

When the settled verdicts agree with the slow path.

A verdict is kept under the 5-tuple alone, but rests on the policy, the owner of the socket,
the name of the destination and the identity of the binary, and is dropped only when the
policy file is reloaded.  What it was reached with may have been out of date by then: the
tables of the last scan name owners that have gone, and a digest is kept for a file that has
been replaced.  In a run whose steps judge by what is current and leave alone what the settled
verdicts rest on (`Host.Undisturbed`), the fast path agrees with the slow path
(`fast_path_agrees`); a socket that changes hands is enough to break it
(`fast_path_outlives_owner`).
-/

namespace Pfsnitch

open Lib

variable [Casing]

/-! ## what a verdict rests on -/

omit [Casing] in
/-- The question the slow path puts to the policy about a flow. -/
def flowQuery (env : Env) (names : DnsCache) (flow : FlowKey) : Query :=
  ⟨flowExe env flow, (flowDst flow).1, names.nameFor (flowDst flow).1, (flowDst flow).2⟩

/-- The settled verdicts are those the slow path would reach in this environment. -/
def Fresh (env : Env) (d : Daemon) : Prop :=
  ∀ flow v, d.decided.lookup flow = some v → slowVerdict d.pol env d.names flow = v

/-- A new entry agrees with a verdict: it does not cover the query, or it has
the verdict's effect, or it is an allow under a covering deny. -/
def Compatible (pol : Policy) (e : Entry) (q : Query) (v : Verdict) : Prop :=
  e.scope.Covers q →
    (e.effect = .deny → v = .deny) ∧ (e.effect = .allow → v = .deny → pol.Covers .deny q)

/-- Two environments have the same binary behind a flow, and agree on whether it is the one
that was approved. -/
structure SameJudge (pol : Policy) (env env' : Env) (flow : FlowKey) : Prop where
  owner : flowExe env flow = flowExe env' flow
  identity : ∀ exe, flowExe env' flow = some exe → idChanged pol env exe = idChanged pol env' exe

/-- The settled flows keep their binaries, and these are the ones that were approved. -/
def Steady (d : Daemon) (env env' : Env) : Prop :=
  ∀ flow v, d.decided.lookup flow = some v → flowExe env' flow = flowExe env flow ∧
    ∀ exe, flowExe env' flow = some exe → idChanged d.pol env' exe = false

namespace Host

variable (sha256 : List UInt8 → Digest)

/-- An event leaves alone what the settled verdicts rest on.  Processes, the module and
binaries keep the settled flows' owners and the identity of their binaries.  The main thread
judges a flow by its owner and its binary as they are, an answer's rule agrees with the
settled verdicts, and its pin is the digest that a settled flow's binary has, and a DNS answer
keeps the names of the settled flows' destinations. -/
def Undisturbed (s : Host) (d : Daemon) : Event → Prop
  | .around ev => ev = .unloadModule →
      Steady d (s.current sha256 d.pol) ((s.renewed ev).current sha256 d.pol)
  | .processes machine creators =>
      Steady d (s.current sha256 d.pol) ((s.reopened machine creators).current sha256 d.pol)
  | .replace path file =>
      Steady d (s.current sha256 d.pol) ((s.replaced path file).current sha256 d.pol)
  | .daemon inp checks =>
    let env := s.answers sha256 inp checks d
    let now := s.current sha256 d.pol
    (∀ f, d.judged inp = some f → SameJudge d.pol env now f.key) ∧
    (∀ ans p rx, d.pc = .answers → d.rx = (ans, p) :: rx →
      ∀ flow v, d.decided.lookup flow = some v →
        (∀ e, answerEntry ans p.exe p.dst p.host p.dport = some e →
          Compatible d.pol e (flowQuery now d.names flow) v) ∧
        ∀ exe, ans.approves = true → p.exe = some exe → flowExe now flow = some exe →
          ∀ x y, env.hash exe = some x → now.hash exe = some y → x = y) ∧
    ∀ pkt src f, d.pc = .recv → inp.packet = some (pkt, src) → parse pkt = some f →
      f.proto = 17 ∧ f.sport = 53 → ∀ flow v, d.decided.lookup flow = some v →
        (learnNames d.names pkt s.world.os.now).nameFor (flowDst flow).1 =
          d.names.nameFor (flowDst flow).1

/-- The steps the settled verdicts survive; they are about to be cleared while
`decided.clear()` is still to come. -/
def CacheSafe (s : Host) (ev : Event) : Prop :=
  ∀ d, s.world.daemon = some d → .clearDecided ∉ d.pc.ops → s.Undisturbed sha256 d ev

end Host

/-! ## deciding after a change of the policy -/

/-- An entry that agrees with a settled decision does not change it. -/
theorem decide_insert {p : Policy} {e : Entry} {q : Query} {v : Verdict}
    (hv : p.decide q.exe q.dst q.host q.dport = v) (hask : v ≠ .ask)
    (hcompat : Compatible p e q v) :
    (p.insert e).decide q.exe q.dst q.host q.dport = v := by
  have hold := p.decide_settles q
  have hnew := (p.insert e).decide_settles q
  rw [hv] at hold
  rw [Policy.default_insert] at hnew
  by_cases hcov : e.scope.Covers q
  · obtain ⟨hdeny, hallow⟩ := hcompat hcov
    cases heff : e.effect with
    | deny =>
        rw [hdeny heff]
        exact hnew.deny (Policy.covers_insert.mpr (.inl ⟨heff, hcov⟩))
    | allow =>
        cases v with
        | ask => exact absurd rfl hask
        | deny => exact hnew.deny (Policy.covers_insert.mpr (.inr (hallow heff rfl)))
        | allow =>
            refine hnew.allow (fun h => ?_) (Policy.covers_insert.mpr (.inl ⟨heff, hcov⟩))
            rcases Policy.covers_insert.mp h with ⟨heff', -⟩ | h
            · simp [heff] at heff'
            · exact absurd (hold.deny h) (by decide)
  · have hsame : ∀ eff, (p.insert e).Covers eff q ↔ p.Covers eff q := fun eff =>
      Policy.covers_insert.trans (or_iff_right fun h => hcov h.2)
    rw [hsame, hsame] at hnew
    exact hnew.unique hold

theorem lower_digest (d : Digest) : lower d.text = d.text := by
  have hhex : ∀ c ∈ d.text, c.toNat < 128 ∧ c.toLower = c := fun c hc =>
    (by decide : ∀ x ∈ "0123456789abcdef".toList, x.toNat < 128 ∧ x.toLower = x) c (d.hex c hc)
  rw [Casing.lower_ascii _ fun c hc => (hhex c hc).1]
  exact (List.map_congr_left fun c hc => (hhex c hc).2).trans (List.map_id _)

/-- Re-pinning changes the pin of the approved binary only, and leaves it approved if the
digest is the one that the binary has. -/
theorem repin_eq (p : Policy) (ans : Answer) (exe : Option Str) (env now : Env) :
    ∃ pins, (p.repin ans exe (exe.bind env.hash)).1 = { p with appId := pins } ∧
      ∀ e, idChanged p now e = false →
        (ans.approves = true → exe = some e →
          ∀ x y, env.hash e = some x → now.hash e = some y → x = y) →
        idChanged { p with appId := pins } now e = false := by
  cases exe with
  | none => exact ⟨p.appId, rfl, fun _ h _ => h⟩
  | some e =>
      cases happ : ans.approves with
      | false => exact ⟨p.appId, by simp [Policy.repin, happ], fun _ h _ => h⟩
      | true =>
          cases hsha : env.hash e with
          | none =>
              refine ⟨_, by simp [Policy.repin, happ, hsha, Policy.forgetId]; rfl,
                fun e' h _ => ?_⟩
              by_cases he : e' = e
              · simp [idChanged, Policy.expectedId, he]
              · simpa [idChanged, Policy.expectedId, he] using h
          | some x =>
              refine ⟨_, by simp [Policy.repin, happ, hsha, Policy.recordId, Policy.forgetId]; rfl,
                fun e' h hpin => ?_⟩
              by_cases he : e' = e
              · subst he
                have hpin := hpin rfl rfl x
                cases hnow : now.hash e' with
                | none => simp [idChanged, Policy.expectedId, hnow]
                | some y =>
                    obtain rfl := hpin y hsha hnow
                    simp [idChanged, Policy.expectedId, hnow, lower_digest]
              · simpa [idChanged, Policy.expectedId, he] using h

/-- A settled judgement: the binary is the one that was approved, and the
policy decides. -/
theorem judge_eq_iff {pol : Policy} {env : Env} {exe : Option Str} {dst : IpAddr}
    {host : Option Str} {dport : UInt16} {v : Verdict} (hask : v ≠ .ask) :
    judge pol env exe dst host dport = v ↔
      (∀ e, exe = some e → idChanged pol env e = false) ∧ pol.decide exe dst host dport = v := by
  cases exe with
  | none => simp [judge]
  | some e =>
      cases hid : idChanged pol env e with
      | true => simp [judge, hid, Ne.symm hask]
      | false => simp [judge, hid]

/-- An answer keeps a settled judgement that its rule and its pin agree with. -/
theorem judge_answered {pol : Policy} {env now : Env} {q : Query} {v : Verdict} {ans : Answer}
    {exe : Option Str} {dst : IpAddr} {host : Option Str} {dport : UInt16} (hask : v ≠ .ask)
    (hv : judge pol now q.exe q.dst q.host q.dport = v)
    (hcompat : ∀ e, answerEntry ans exe dst host dport = some e → Compatible pol e q v)
    (hpin : ∀ e, ans.approves = true → exe = some e → q.exe = some e →
      ∀ x y, env.hash e = some x → now.hash e = some y → x = y) :
    judge (pol.answered ans exe dst host dport (exe.bind env.hash)).1 now q.exe q.dst q.host
      q.dport = v := by
  obtain ⟨pins, hrepin, hpins⟩ := repin_eq pol ans exe env now
  obtain ⟨hid, hdec⟩ := (judge_eq_iff hask).mp hv
  have hkeep : ∀ e, q.exe = some e → idChanged { pol with appId := pins } now e = false :=
    fun e he => hpins e (hid e he) fun happ hexe => hpin e happ hexe he
  refine (judge_eq_iff hask).mpr ?_
  rw [answered_eq, hrepin]
  cases hentry : answerEntry ans exe dst host dport with
  | none => exact ⟨hkeep, hdec⟩
  | some e =>
      refine ⟨fun e' he' => ?_, ?_⟩
      · simpa [idChanged, Policy.expectedId] using hkeep e' he'
      · exact decide_insert (p := { pol with appId := pins }) hdec hask (hcompat e hentry)

/-- An ask: the binary has changed, or the policy has no rule and no default. -/
theorem judge_eq_ask {pol : Policy} {env : Env} {q : Query}
    (h : judge pol env q.exe q.dst q.host q.dport = .ask) :
    (∃ e, q.exe = some e ∧ idChanged pol env e = true) ∨ pol.default.getD .ask = .ask := by
  simp only [judge] at h
  split at h
  · rename_i hany
    exact .inl ((Option.any_eq_true _ _).mp hany)
  · right
    have hset := pol.decide_settles q
    rw [h] at hset
    by_cases hdeny : pol.Covers .deny q
    · exact absurd (hset.deny hdeny) (by decide)
    · by_cases hallow : pol.Covers .allow q
      · exact absurd (hset.allow hdeny hallow) (by decide)
      · exact (hset.default hdeny hallow).symm

/-- What visibility learns keeps every settled judgement: it is learned where
there was nothing settled. -/
theorem judge_learned {pol : Policy} {env : Env} (q q' : Query) {v : Verdict} (hask : v ≠ .ask)
    (hv : judge pol env q.exe q.dst q.host q.dport = v)
    (hq' : judge pol env q'.exe q'.dst q'.host q'.dport = .ask) :
    judge (pol.learned q'.exe q'.dst q'.host q'.dport).1 env q.exe q.dst q.host q.dport = v := by
  obtain ⟨hid, hdec⟩ := (judge_eq_iff hask).mp hv
  refine (judge_eq_iff hask).mpr ?_
  rw [Policy.learned, record_eq]
  cases hentry : answerEntry .allowConn q'.exe q'.dst q'.host q'.dport with
  | none => exact ⟨hid, hdec⟩
  | some e =>
      refine ⟨fun e' he' => by simpa [idChanged, Policy.expectedId] using hid e' he', ?_⟩
      refine decide_insert hdec hask fun hcov => ⟨fun heff => ?_, fun heff hdeny => ?_⟩
      · simp [(allowConn_entry hentry).1] at heff
      · by_contra hcovers
        have hset := pol.decide_settles q
        rw [hdec, hdeny] at hset
        by_cases hallow : pol.Covers .allow q
        · exact absurd (hset.allow hcovers hallow) (by decide)
        · have hdefault := hset.default hcovers hallow
          obtain ⟨x, hx, hchanged⟩ | hnone := judge_eq_ask hq'
          · -- the learned rule is for a changed binary, and so is not about this flow
            rw [hid x ((allowConn_entry hentry).2 q x hx hcov)] at hchanged
            cases hchanged
          · rw [← hdefault] at hnone
            cases hnone

/-- Where two environments agree on a flow, so do the slow paths. -/
theorem SameJudge.slowVerdict {pol : Policy} {env env' : Env} {flow : FlowKey}
    (h : SameJudge pol env env' flow) (names : DnsCache) :
    slowVerdict pol env names flow = slowVerdict pol env' names flow := by
  rw [Pfsnitch.slowVerdict, Pfsnitch.slowVerdict, h.owner, judge, judge]
  cases hexe : flowExe env' flow with
  | none => rfl
  | some exe => rw [Option.any_some, Option.any_some, h.identity exe hexe]

/-! ## every step keeps the settled verdicts fresh -/

omit [Casing] in
theorem Entered.not_mem_ops {ops : List Op} {up : Bool}
    (h : ops = [] ∨ ops = tickOps ∨ ops = stopOps up) : .loadPolicy ∉ ops := by
  rcases h with rfl | rfl | rfl
  · simp
  · decide
  · cases up <;> decide

section Steps

variable {inp : Input} {os os' : Os} {d d' : Daemon} {env now : Env}

/-- Freshness depends on the policy, the names and the settled verdicts. -/
theorem Fresh.congr (h : Fresh env d) (hpol : d'.pol = d.pol) (hnames : d'.names = d.names)
    (hdecided : d'.decided = d.decided) : Fresh env d' := by
  intro flow v hv
  rw [hpol, hnames]
  exact h flow v (hdecided ▸ hv)

/-- Settled verdicts stay fresh where they keep their owners and these their identity. -/
theorem Fresh.steady (h : Fresh env d) (hask : ∀ flow, d.decided.lookup flow ≠ some .ask)
    (hsteady : Steady d env now) : Fresh now d := by
  intro flow v hlookup
  obtain ⟨howner, hbinary⟩ := hsteady flow v hlookup
  have hask : v ≠ .ask := fun h => hask flow (h ▸ hlookup)
  have hold := (judge_eq_iff hask).mp (h flow v hlookup)
  refine (judge_eq_iff hask).mpr ⟨hbinary, ?_⟩
  rw [howner]
  exact hold.2

/-- A packet keeps the settled verdicts fresh, unless it is judged by what is out of date or
renames a destination. -/
theorem PacketCase.fresh {pkt : Packet} {src : Sockaddr} {r : Handled}
    (h : PacketCase inp os d pkt src r) (hpc : d.pc = .recv) (hpkt : inp.packet = some (pkt, src))
    (hask : ∀ flow, d.decided.lookup flow ≠ some .ask) (hfresh : Fresh now d)
    (hjudge : ∀ f, d.judged inp = some f → SameJudge d.pol os.env now f.key)
    (hnames : ∀ f, parse pkt = some f → f.proto = 17 ∧ f.sport = 53 →
      ∀ flow v, d.decided.lookup flow = some v →
        (learnNames d.names pkt os.now).nameFor (flowDst flow).1 =
          d.names.nameFor (flowDst flow).1) :
    Fresh now r.daemon := by
  cases h with
  | unjudged | fast => exact hfresh
  | dns hparse hdns =>
      intro flow v hv
      have hold := hfresh flow v hv
      simp only [slowVerdict] at hold ⊢
      rw [hnames _ hparse hdns flow v hv]
      exact hold
  | @slow f kern _ hparse hdns hsrc hopens hlookup hkern h =>
      have hsame : SameJudge d.pol os.env now f.key := by
        refine hjudge f ?_
        rw [Daemon.judged, hpc, hpkt]
        exact Option.filter_eq_some_iff.mpr
          ⟨hparse, decide_eq_true ⟨hdns, hsrc, hopens, hlookup⟩⟩
      have hnow := hsame.slowVerdict d.names
      cases h with
      | @settled v os' d' hv hpush =>
          have hsettled : Fresh now { d with decided := settle d.decided f.key v.verdict } := by
            intro flow v' hv'
            obtain ⟨rfl, rfl⟩ | hold := lookup_settle hv'
            · exact hnow.symm.trans hv
            · exact hfresh flow v' hold
          obtain ⟨rfl, rfl⟩ | ⟨_, -, -, rfl, rfl⟩ := pushSettled_cases hpush <;>
            exact hsettled.congr rfl rfl rfl
      | held hv hmode hraise =>
          obtain ⟨⟨_, _, rfl⟩, -⟩ := raise_cases hraise
          exact hfresh
      | @learned pol ls hv hmode hl =>
          intro flow v hlookup
          have hkeep := judge_learned (flowQuery now d.names flow) (flowQuery now d.names f.key)
            (fun h => hask flow (h ▸ hlookup)) (hfresh flow v hlookup) (hnow.symm.trans hv)
          have hpol : (d.pol.learned (flowExe now f.key) f.dst (d.names.nameFor f.dst)
            f.dport).1 = pol := by rw [← hsame.owner]; exact congrArg Prod.fst hl
          change slowVerdict pol now d.names flow = v
          rw [← hpol]
          exact hkeep

/-- An answer that agrees with the settled verdicts keeps them fresh. -/
theorem Fresh.answered {ans : Answer} {p : Pending} {rx : List (Answer × Pending)}
    (hfresh : Fresh now d) (hask : ∀ flow, d.decided.lookup flow ≠ some .ask)
    (hagrees : ∀ flow v, d.decided.lookup flow = some v →
      (∀ e, answerEntry ans p.exe p.dst p.host p.dport = some e →
        Compatible d.pol e (flowQuery now d.names flow) v) ∧
      ∀ exe, ans.approves = true → p.exe = some exe → flowExe now flow = some exe →
        ∀ x y, os.env.hash exe = some x → now.hash exe = some y → x = y)
    (hdrain : drainAnswer inp os { d with rx } ans p = (os', d')) : Fresh now d' := by
  obtain ⟨os₁, kern, pol, ls, hr, ha, rfl, rfl⟩ := drainAnswer_cases hdrain
  intro flow v hlookup
  obtain ⟨hcompat, hpin⟩ := hagrees flow v hlookup
  have hkeep := judge_answered (q := flowQuery now d.names flow)
    (fun h => hask flow (h ▸ hlookup)) (hfresh flow v hlookup) hcompat hpin
  rw [ha] at hkeep
  exact hkeep

/-- An effect keeps the settled verdicts fresh, or has them cleared. -/
theorem Op.run_fresh {now : Policy → Env} {op : Op} {rest extra : List Op}
    (hrun : op.run inp os d = (os', some d', extra))
    (hload : .loadPolicy ∈ op :: rest → d.decided = ∅)
    (hfresh : .clearDecided ∈ op :: rest ∨ Fresh (now d.pol) d) :
    (.loadPolicy ∈ extra ++ rest → d'.decided = ∅) ∧
      (.clearDecided ∈ extra ++ rest ∨ Fresh (now d'.pol) d') := by
  have hextra := Op.loadPolicy_not_mem_extra (Op.extra_mem_extras hrun)
  have hkeeps := Op.run_keeps hrun
  simp only [List.mem_append, List.mem_cons] at hload hfresh ⊢
  by_cases hclear : op = .clearDecided
  · -- nothing is settled any more
    subst hclear
    simp only [Op.run, Prod.mk.injEq, Option.some.injEq] at hrun
    obtain ⟨rfl, rfl, rfl⟩ := hrun
    exact ⟨fun _ => rfl, .inr fun flow v hv => by simp at hv⟩
  have hdecided := hkeeps.decided hclear
  refine ⟨fun hmem => ?_, ?_⟩
  · rw [hdecided]
    exact hload (.inr (hmem.resolve_left hextra))
  by_cases hloads : op = .loadPolicy
  · right
    intro flow v hv
    rw [hdecided, hload (.inl hloads.symm)] at hv
    simp at hv
  by_cases hreload : op = .reload
  · subst hreload
    simp only [Op.run, reloadPolicy, Prod.mk.injEq] at hrun
    obtain ⟨-, -, rfl⟩ := hrun
    exact .inl (.inl (by simp))
  · obtain ⟨hpol, -⟩ := hkeeps.pol hloads hreload
    rcases hfresh with (h | h) | h
    · exact absurd h.symm hclear
    · exact .inl (.inr h)
    · exact .inr ((hpol.symm ▸ h).congr hpol hkeeps.names hdecided)

end Steps

namespace Host

variable {sha256 : List UInt8 → Digest} {s s' : Host} {ev : Event} {o : List Output}

omit [Casing] in
/-- What is current depends on the policy by the backend it asks. -/
theorem current_congr {p p' : Policy} (h : p'.attribution = p.attribution) :
    s.current sha256 p' = s.current sha256 p := by
  rw [current, current, Policy.attributionMode, Policy.attributionMode, h]

omit [Casing] in
/-- The events around the main thread change nobody's owner, but for the module's. -/
theorem current_renewed {ev : Pfsnitch.Event} {w : World} {p : Policy} (h : ev ≠ .unloadModule) :
    ({ s.renewed ev with world := w } : Host).current sha256 p = s.current sha256 p := by
  cases ev with
  | unloadModule => exact absurd rfl h
  | _ => rfl

variable (sha256) in
/-- The settled verdicts are fresh, except that the policy is loaded with
nothing settled, and that a reload clears them a moment later. -/
def FreshOrCleared (s : Host) : Prop :=
  ∀ d, s.world.daemon = some d → (.loadPolicy ∈ d.pc.ops → d.decided = ∅) ∧
    (.clearDecided ∈ d.pc.ops ∨ Fresh (s.current sha256 d.pol) d)

/-- Where the system stays as it is, the settled verdicts stay fresh if their grounds are
steady. -/
theorem FreshOrCleared.steady (hinv : FreshOrCleared sha256 s) (hsettled : Settled s.world)
    (hworld : s'.world = s.world)
    (hsteady : ∀ d, s.world.daemon = some d → .clearDecided ∉ d.pc.ops →
      Steady d (s.current sha256 d.pol) (s'.current sha256 d.pol)) : FreshOrCleared sha256 s' := by
  intro d hd
  rw [hworld] at hd
  obtain ⟨hload, hfresh⟩ := hinv d hd
  refine ⟨hload, or_iff_not_imp_left.mpr fun hclear => ?_⟩
  exact (hfresh.resolve_left hclear).steady (hsettled d hd) (hsteady d hd hclear)

/-- Around the main thread only the module can disturb the settled verdicts. -/
theorem fresh_around {ev : Pfsnitch.Event} {w : World} (hout : Outside s.world ev w o)
    (hsafe : s.CacheSafe sha256 (.around ev)) (hsettled : Settled s.world)
    (hinv : FreshOrCleared sha256 s) :
    FreshOrCleared sha256 { s.renewed ev with world := w } := by
  intro d₁ hd₁
  obtain hnone | ⟨fallback, -, hnew⟩ | ⟨d, d', hd, hd', _, _, _, _, _, rfl⟩ := hout.daemon
  · simp [hnone] at hd₁
  · obtain rfl := Option.some.inj (hnew.symm.trans hd₁)
    exact ⟨fun _ => rfl, .inr fun flow v hv => by simp [Daemon.new] at hv⟩
  obtain rfl := Option.some.inj (hd'.symm.trans hd₁)
  obtain ⟨hload, hfresh⟩ := hinv d hd
  refine ⟨hload, or_iff_not_imp_left.mpr fun hclear => ?_⟩
  have hfresh := hfresh.resolve_left hclear
  by_cases hmodule : ev = .unloadModule
  · have hsteady := hsafe d hd hclear hmodule
    exact (hfresh.steady (hsettled d hd) hsteady).congr rfl rfl rfl
  · rw [current_renewed hmodule]
    exact hfresh.congr rfl rfl rfl

/-- The main thread keeps the settled verdicts fresh. -/
theorem fresh_daemon {inp : Input} {checks : Checks} {d : Daemon} {w : World}
    (hmain : MainStep inp (s.told sha256 inp checks d) d w o) (hd : s.world.daemon = some d)
    (hsafe : .clearDecided ∉ d.pc.ops → s.Undisturbed sha256 d (.daemon inp checks))
    (hsettled : ∀ flow, d.decided.lookup flow ≠ some .ask) (hinv : FreshOrCleared sha256 s) :
    ∀ d', w.daemon = some d' → (.loadPolicy ∈ d'.pc.ops → d'.decided = ∅) ∧
      (.clearDecided ∈ d'.pc.ops ∨ Fresh (s.current sha256 d'.pol) d') := by
  intro d' hd'
  obtain ⟨hload, hfresh⟩ := hinv d hd
  -- between two effects the policy keeps its backend
  have hcurrent : d.pc.ops = [] → s.current sha256 d'.pol = s.current sha256 d.pol := fun hops =>
    current_congr (hmain.settings hd' (by simp [hops]) (by simp [hops])).1
  cases hmain with
  | moves hm =>
      obtain rfl := Option.some.inj hd'
      obtain ⟨hops, hops'⟩ := hm.ops
      refine ⟨fun hmem => absurd hmem (Entered.not_mem_ops hops'), .inr ?_⟩
      exact (hfresh.resolve_left (by simp [hops])).congr rfl rfl rfl
  | exits hpc => cases hd'
  | answer hpc hrx hdrain =>
      obtain rfl := Option.some.inj hd'
      have hops : d.pc.ops = [] := by simp [hpc, Pc.ops]
      have hfresh := hfresh.resolve_left (by simp [hops])
      have hagrees := (hsafe (by simp [hops])).2.1 _ _ _ hpc hrx
      have hafter := hfresh.answered hsettled hagrees hdrain
      rw [hcurrent hops]
      obtain ⟨_, _, _, _, -, -, -, rfl⟩ := drainAnswer_cases hdrain
      exact ⟨fun hmem => by simp [hops] at hmem, .inr hafter⟩
  | upcall hpc hurx hdrain =>
      obtain rfl := Option.some.inj hd'
      have hops : d.pc.ops = [] := by simp [hpc, Pc.ops]
      have hfresh := hfresh.resolve_left (by simp [hops])
      cases drainUpcall_cases hdrain with
      | resolved hv hr =>
          exact ⟨fun hmem => by simp [hops] at hmem, .inr (hfresh.congr rfl rfl rfl)⟩
      | asked hpath hv hraise =>
          obtain ⟨⟨_, _, rfl⟩, -⟩ := raise_cases hraise
          exact ⟨fun hmem => by simp [addWaiter, hops] at hmem, .inr hfresh⟩
  | effect hpc hop =>
      obtain ⟨d₂, rfl, rfl⟩ := Option.map_eq_some_iff.mp hd'
      obtain ⟨hops, hnext⟩ := hpc.ops
      rw [hops] at hload hfresh
      simp only [hnext]
      exact Op.run_fresh hop hload hfresh
  | @packet pkt src r hpc hpkt hr =>
      obtain rfl := Option.some.inj hd'
      have hops : d.pc.ops = [] := by simp [hpc, Pc.ops]
      have hfresh := hfresh.resolve_left (by simp [hops])
      obtain ⟨hjudge, -, hnames⟩ := hsafe (by simp [hops])
      have hcase := hr ▸ handlePacket_cases inp (s.told sha256 inp checks d) d pkt src
      refine ⟨fun hmem => absurd (hcase.next_ops hmem) (by simp), .inr ?_⟩
      rw [hcurrent hops]
      have hafter := hcase.fresh hpc hpkt hsettled hfresh hjudge fun f => hnames pkt src f hpc hpkt
      exact hafter.congr rfl rfl rfl

/-- Every step that leaves the settled verdicts' grounds alone keeps them fresh. -/
theorem step_fresh (h : s.step sha256 ev = some (s', o)) (hsafe : s.CacheSafe sha256 ev)
    (hsettled : Settled s.world) (hinv : FreshOrCleared sha256 s) : FreshOrCleared sha256 s' := by
  cases ev with
  | around ev =>
      obtain ⟨haround, w, hw, rfl⟩ := step_around h
      refine fresh_around (outside_of_step hw ?_) hsafe hsettled hinv
      rintro inp rfl
      cases haround
  | daemon inp checks =>
      obtain ⟨d, w, hd, hstep, rfl⟩ := step_daemon h
      have hafter := fresh_daemon (mainStep_of_step hstep) hd (hsafe d hd) (hsettled d hd) hinv
      exact hafter
  | processes machine creators =>
      obtain ⟨rfl, -⟩ := Prod.mk.inj (Option.some.inj h)
      exact hinv.steady hsettled rfl hsafe
  | replace path file =>
      obtain ⟨rfl, -⟩ := Prod.mk.inj (Option.some.inj h)
      exact hinv.steady hsettled rfl hsafe

/-- In a run whose steps leave the settled verdicts' grounds alone, they are
fresh in every state reached. -/
theorem reachable_fresh (h : s.Reachable sha256 (CacheSafe sha256)) : FreshOrCleared sha256 s := by
  obtain ⟨s₀, hinit, hrun⟩ := h
  refine (hrun.invariant
    (P := fun s => s.Reachable sha256 (fun _ _ => True) ∧ FreshOrCleared sha256 s)
    ⟨⟨s₀, hinit, .refl⟩, hinit.world.no_daemon⟩ ?_).2
  rintro s ev s' o ⟨hreach, hinv⟩ hsafe hstep
  have hsettled : Settled s.world := reachable_settled (reachable_world hreach)
  obtain ⟨s₁, hinit₁, hrun₁⟩ := hreach
  exact ⟨⟨s₁, hinit₁, hrun₁.tail trivial hstep⟩, step_fresh hstep hsafe hsettled hinv⟩

end Host

/-! ## the fast path -/

/-- The slow path judges by its verdict. -/
theorem slowPath_used (inp : Input) (os : Os) (d : Daemon) (pkt : Packet) (src : Sockaddr)
    (f : Flow) :
    (slowPath inp os d pkt src f).used = some (slowVerdict d.pol os.env d.names f.key) := by
  obtain ⟨kern, -, hcase⟩ := slowPath_cases inp os d pkt src f
  generalize slowPath inp os d pkt src f = r at hcase ⊢
  cases hcase with
  | settled hv | held hv | learned hv => exact congrArg some hv.symm

/-- **The fast path agrees with the slow path.**  In every state reached by a run whose steps
judge by what is current and leave the settled verdicts' grounds alone, a packet whose flow is
settled would be judged as it was settled by a slow path that is told of the owner and the
binary as they are. -/
theorem fast_path_agrees {sha256 : List UInt8 → Digest} {s : Host}
    (hs : s.Reachable sha256 (Host.CacheSafe sha256)) {d : Daemon}
    (hd : s.world.daemon = some d) (hpc : d.pc = .recv) (inp : Input) (pkt : Packet) (src : Sockaddr)
    {f : Flow} {v : Verdict} (hlookup : d.decided.lookup f.key = some v) :
    (slowPath inp { s.world.os with env := s.current sha256 d.pol } d pkt src f).used = some v := by
  have hfresh := (Host.reachable_fresh hs d hd).2.resolve_left (by simp [hpc, Pc.ops])
  rw [slowPath_used, hfresh f.key v hlookup]

/-! ## a flow that is settled, and one that changes hands -/

omit [Casing] in
/-- A check of `Steady`, flow by flow. -/
def steadily (d : Daemon) (env env' : Env) : Bool :=
  d.decided.entries.all fun x => flowExe env' x.1 = flowExe env x.1 ∧
    (flowExe env' x.1).all (fun exe => !idChanged d.pol env' exe) = true

omit [Casing] in
theorem steady_of_check {d : Daemon} {env env' : Env} (h : steadily d env env' = true) :
    Steady d env env' := by
  intro flow v hlookup
  have hmem := List.all_eq_true.mp h _ (AList.mem_lookup_iff.mp hlookup)
  obtain ⟨howner, hbinary⟩ := of_decide_eq_true hmem
  refine ⟨howner, fun exe hexe => ?_⟩
  rw [hexe, Option.all_some, Bool.not_eq_true'] at hbinary
  exact hbinary

namespace Host

omit [Casing] in
/-- Steps that are easily seen to be safe: there is no answer, a flow is judged by what is
current, and once something is settled there is no packet. -/
def Calm (sha256 : List UInt8 → Digest) (s : Host) (ev : Event) : Bool :=
  s.world.daemon.all fun d =>
    let now := s.current sha256 d.pol
    match ev with
    | .around .unloadModule => false
    | .around _ => true
    | .processes machine creators =>
      steadily d now ((s.reopened machine creators).current sha256 d.pol)
    | .replace path file => steadily d now ((s.replaced path file).current sha256 d.pol)
    | .daemon inp checks =>
      let env := s.answers sha256 inp checks d
      d.rx.isEmpty && (d.decided.entries.isEmpty || inp.packet.isNone) &&
        (d.judged inp).all fun f => flowExe env f.key = flowExe now f.key ∧
          (flowExe now f.key).all (fun exe => idChanged d.pol env exe = idChanged d.pol now exe) = true

theorem cacheSafe_of_calm {sha256 : List UInt8 → Digest} {s : Host} {ev : Event}
    (h : s.Calm sha256 ev = true) : s.CacheSafe sha256 ev := by
  rintro d hd -
  simp only [Calm, hd, Option.all_some] at h
  cases ev with
  | around ev =>
      rintro rfl
      cases h
  | processes | replace => exact steady_of_check h
  | daemon inp checks =>
      obtain ⟨h, hjudge⟩ := (Bool.and_eq_true ..).mp h
      obtain ⟨hrx, hquiet⟩ := (Bool.and_eq_true ..).mp h
      refine ⟨fun f hf => ?_, fun ans p rx _ h => ?_, fun pkt src f _ hpkt _ _ flow v hv => ?_⟩
      · rw [hf, Option.all_some, decide_eq_true_eq] at hjudge
        refine ⟨hjudge.1, fun exe hexe => ?_⟩
        have hid := hjudge.2
        rw [hexe, Option.all_some, decide_eq_true_eq] at hid
        exact hid
      · rw [List.isEmpty_iff.mp hrx] at h
        cases h
      · obtain hempty | hnone := (Bool.or_eq_true ..).mp hquiet
        · rw [AList.ext (t := ∅) (List.isEmpty_iff.mp hempty)] at hv
          cases hv
        · rw [hpkt] at hnone
          cases hnone

end Host

omit [Casing] in
/-- A process of this pid and path, bound to the port that the datagram leaves from. -/
def boundProcess (pid : Int) (path : String) : Procinfo.Process where
  pid := pid
  comm := utf8Bytes path.toList
  pathname := some (utf8Bytes path.toList)
  files := some [⟨3, some ⟨17, .inet 9 ⟨10, 0, 0, 1⟩, .other⟩⟩]

omit [Casing] in
/-- The port is bound by a process of this pid and path; another process has no socket. -/
def boundMachine (pid : Int) (path : String) (h : pid ≠ 9) : Procinfo.Machine where
  procs := some [boundProcess pid path, ⟨9, [], none, some []⟩]
  nodup := by simpa [boundProcess] using h

omit [Casing] in
/-- The policy allows `/a` and pins it to the digest of the file at `/a`. -/
def pinnedPolicy : Str := "allow-app /a\napp-id ".toList ++ Identity.digestA.text ++ " /a\n".toList

omit [Casing] in
/-- A machine with that policy, on which `/a` is bound to the port. -/
def Host.owned : Host where
  world := { World.idle with os := { World.idle.os with policy := some (.ofText pinnedPolicy 1) } }
  machine := ⟨some [boundProcess 7 "/a"], by decide⟩
  creators := fun _ => none
  binaries := ⟨fun path => if path = "/a".toList then some ⟨[97], 0⟩ else none, .new⟩
  res := .new

omit [Casing] in
/-- The daemon starts, settles the flow of one datagram, and is back in its loop. -/
def settleEvents : List Host.Event :=
  .around (.startDaemon .enforcement) :: List.replicate 9 (.daemon {} {}) ++
    [.daemon { packet := some (datagram 9, ⟨0, 0⟩) } {}] ++ List.replicate 4 (.daemon {} {})

omit [Casing] in
/-- `sha256` as far as it matters here. -/
def sha256AB (content : List UInt8) : Digest :=
  if content = [97] then Identity.digestA else Identity.digestB

omit [Casing] in
/-- The flow of that datagram, of a pinned binary, is settled, and another process comes: the
slow path would still allow it. -/
theorem fast_path_agrees_datagram :
    letI := asciiCasing
    ∃ (s : Host) (d : Daemon) (f : Flow), s.world.daemon = some d ∧ parse (datagram 9) = some f ∧
      d.decided.lookup f.key = some .allow ∧
      (slowPath {} { s.world.os with env := s.current sha256AB d.pol } d (datagram 9) ⟨0, 0⟩
        f).used = some .allow := by
  let _ := asciiCasing
  obtain ⟨f, hf⟩ : ∃ f, parse (datagram 9) = some f := ⟨_, rfl⟩
  have hexec : (exec (Host.step sha256AB) (fun s ev => s.Calm sha256AB ev = true) .owned
      (settleEvents ++ [.processes (boundMachine 7 "/a" (by decide)) fun _ => none])).any (fun s =>
        s.world.daemon.any fun d => d.pc = .recv ∧
          ((parse (datagram 9)).bind fun f => d.decided.lookup f.key) = some .allow) = true := by
    decide +kernel
  obtain ⟨s, hrun, hp⟩ := exists_run_of_exec hexec
  obtain ⟨d, hd, hp⟩ := (Option.any_eq_true _ _).mp hp
  rw [decide_eq_true_eq, hf, Option.bind_some] at hp
  have hreach : s.Reachable sha256AB (Host.CacheSafe sha256AB) :=
    ⟨.owned, ⟨⟨rfl, rfl⟩, fun _ => rfl, rfl, rfl⟩, hrun.mono fun _ _ h => Host.cacheSafe_of_calm h.1⟩
  exact ⟨s, d, f, hd, hf, hp.2, fast_path_agrees hreach hd hp.1 {} _ _ hp.2⟩

omit [Casing] in
/-- When the socket passes to another binary, its settled allow stays, and the
slow path would ask. -/
theorem fast_path_outlives_owner :
    letI := asciiCasing
    ¬ ∀ (sha256 : List UInt8 → Digest) (s : Host) (d : Daemon) (inp : Input) (pkt : Packet)
      (src : Sockaddr) (f : Flow) (v : Verdict), s.Reachable sha256 (fun _ _ => True) →
      s.world.daemon = some d → d.pc = .recv → parse pkt = some f → src.addr = 0 →
      d.decided.lookup f.key = some v →
      (slowPath inp { s.world.os with env := s.current sha256 d.pol } d pkt src f).used = some v := by
  let _ := asciiCasing
  intro h
  obtain ⟨f, hf⟩ : ∃ f, parse (datagram 9) = some f := ⟨_, rfl⟩
  have hexec : (exec (Host.step sha256AB) (fun _ _ => True) .owned
      (settleEvents ++ [.processes (boundMachine 8 "/b" (by decide)) fun _ => none])).any (fun s =>
        s.world.daemon.any fun d => (parse (datagram 9)).any fun f => d.pc = .recv ∧
          d.decided.lookup f.key = some .allow ∧
          (slowPath {} { s.world.os with env := s.current sha256AB d.pol } d (datagram 9) ⟨0, 0⟩
            f).used = some .ask) = true := by
    decide +kernel
  obtain ⟨s, hrun, hp⟩ := exists_run_of_exec hexec
  obtain ⟨d, hd, hp⟩ := (Option.any_eq_true _ _).mp hp
  rw [hf, Option.any_some, decide_eq_true_eq] at hp
  obtain ⟨hpc, hlookup, hask⟩ := hp
  have hreach : s.Reachable sha256AB (fun _ _ => True) :=
    ⟨.owned, ⟨⟨rfl, rfl⟩, fun _ => rfl, rfl, rfl⟩, hrun.mono fun _ _ _ => trivial⟩
  have hallow := h sha256AB s d {} (datagram 9) ⟨0, 0⟩ f .allow hreach hd hpc hf rfl hlookup
  rw [hask] at hallow
  cases hallow

end Pfsnitch
