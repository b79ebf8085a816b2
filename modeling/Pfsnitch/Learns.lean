import Pfsnitch.FastPath
import Pfsnitch.Questions
import Pfsnitch.Watermark
import Mathlib.Data.Finset.Card

/-!
# Pfsnitch.Learns

What visibility adds to the policy file.

`record` appends a rule whether or not the policy has it.  What keeps the file from growing
with the traffic is that a flow with a rule is not learned again, and that is lost for a
binary that differs from its pin: it is judged without its rules.  In a life of the daemon in
which such a flow is judged only while it has no rule yet (`LearnsNew`), every rule is added
once (`learns_once`); one replaced binary is enough to break it (`learns_again`).
-/

namespace Pfsnitch

open Lib

variable [Casing]

/-! ## what is asked and what is added -/

/-- The binary, destination and port of a learned rule. -/
def Query.learnedScope (q : Query) : Scope :=
  match q.exe, namedHost q.host with
  | some e, some h => .hostFrom e (lower h) (some q.dport)
  | some e, none => .destFrom e q.dst (some q.dport)
  | none, some h => .host (lower h) (some q.dport)
  | none, none => .dest q.dst (some q.dport)

omit [Casing] in
/-- The question a step puts to the policy. -/
def World.asks (w : World) : Event → Option Query
  | .daemon inp =>
    w.daemon.bind fun d => (d.judged inp).map fun f => flowQuery w.os.env d.names f.key
  | _ => none

/-- The rules a step adds in visibility, and their lines. -/
def World.adds (w : World) : Event → List (Scope × Str)
  | .daemon inp =>
    match w.daemon, w.asks (.daemon inp) with
    | some d, some q =>
      if d.mode = .visibility ∧ judge d.pol w.os.env q.exe q.dst q.host q.dport = .ask then
        ((d.pol.learned q.exe q.dst q.host q.dport).2.filter inp.appendOk).map fun l =>
          (q.learnedScope, l)
      else []
    | _, _ => []
  | _ => []

/-- The system, the questions put to the policy so far, and what was added to the file. -/
structure Learning where
  world : World
  asked : List Query
  added : List (Scope × Str)

/-- A step, and what it asks and adds. -/
def Learning.step (s : Learning) (ev : Event) : Option (Learning × List Output) :=
  (s.world.step ev).map fun (w, o) =>
    (⟨w, s.asked ++ (s.world.asks ev).toList, s.added ++ s.world.adds ev⟩, o)

/-! ## what is claimed -/

/-- A daemon that has just been started, under a policy file that puts it in visibility. -/
def World.Observing (w : World) : Prop :=
  ∃ fallback, w.daemon = some (.new fallback w.os.now) ∧
    (Policy.loadFile w.os.policyData).modeOr fallback = .visibility

omit [Casing] in
/-- Nobody else writes the policy file, and the daemon is not started anew. -/
def Undisturbing : Event → Prop
  | .editPolicy _ | .startDaemon _ => False
  | _ => True

/-- A flow of a binary that differs from its pin is judged only while it has no rule. -/
def LearnsNew (w : World) (ev : Event) : Prop :=
  ∀ d q, w.daemon = some d → w.asks ev = some q → q.exe.any (idChanged d.pol w.os.env) = true →
    ¬ d.pol.Has ⟨.allow, q.learnedScope⟩

/-- Every rule is added once, none that the file had, and at most one for each binary,
destination and port that was asked about; and these are all that was added to the file. -/
structure LearnedOnce (data : Option (List UInt8)) (s : Learning) : Prop where
  once : (s.added.map (·.1)).Nodup
  new : ∀ x ∈ s.added, ¬ (Policy.loadFile data).Has ⟨.allow, x.1⟩
  bound : s.added.length ≤ (s.asked.map Query.learnedScope).toFinset.card
  file : s.world.os.policyData = appendLines (fun _ => true) data (s.added.map (·.2))

/-! ## learning a rule -/

theorem answerEntry_allowConn (q : Query) :
    answerEntry .allowConn q.exe q.dst q.host q.dport = some ⟨.allow, q.learnedScope⟩ := by
  unfold answerEntry Query.learnedScope
  cases q.exe <;> cases namedHost q.host <;> rfl

/-- Learning inserts the rule. -/
theorem learned_insert (p : Policy) (q : Query) :
    (p.learned q.exe q.dst q.host q.dport).1 = p.insert ⟨.allow, q.learnedScope⟩ := by
  rw [Policy.learned, record_eq, answerEntry_allowConn]

/-- One line is written for it. -/
theorem learned_line (p : Policy) (q : Query) :
    ∃ l, (p.learned q.exe q.dst q.host q.dport).2 = [l] := by
  obtain ⟨he, -⟩ | ⟨e, l, -, hr⟩ := record_cases p .allowConn q.exe q.dst q.host q.dport .learned
  · rw [answerEntry_allowConn] at he
    cases he
  · exact ⟨l, by rw [Policy.learned, hr]; rfl⟩

omit [Casing] in
theorem patternMatches_self (h : Str) : patternMatches h h = true := if_pos rfl

/-- The rule covers the flow it was learned from. -/
theorem learnedScope_covers (q : Query) : q.learnedScope.Covers q := by
  have hport : portOk (some q.dport) q.dport = true := beq_self_eq_true _
  unfold Query.learnedScope
  cases hexe : q.exe <;> cases hh : namedHost q.host
  · exact ⟨rfl, hport⟩
  · exact ⟨⟨_, namedHost_eq_some hh, patternMatches_self _⟩, hport⟩
  · exact ⟨hexe, rfl, hport⟩
  · exact ⟨hexe, ⟨_, namedHost_eq_some hh, patternMatches_self _⟩, hport⟩

/-- A flow on which the rules have no verdict has no rule of its own. -/
theorem not_has_of_decide {p : Policy} {q : Query}
    (h : p.decide q.exe q.dst q.host q.dport = .ask) : ¬ p.Has ⟨.allow, q.learnedScope⟩ := by
  intro hhas
  have hset := p.decide_settles q
  rw [h] at hset
  by_cases hdeny : p.Covers .deny q
  · exact absurd (hset.deny hdeny) (by decide)
  · exact absurd (hset.allow hdeny ⟨_, hhas, learnedScope_covers q⟩) (by decide)

/-- What is learned has no rule yet: the policy has none, or the binary is not the pinned one. -/
theorem not_has_of_learns {w : World} {d : Daemon} {ev : Event} {q : Query} (hnew : LearnsNew w ev)
    (hd : w.daemon = some d) (hq : w.asks ev = some q)
    (hask : judge d.pol w.os.env q.exe q.dst q.host q.dport = .ask) :
    ¬ d.pol.Has ⟨.allow, q.learnedScope⟩ := by
  rw [judge] at hask
  split at hask
  · rename_i hchanged
    exact hnew d q hd hq hchanged
  · exact not_has_of_decide hask

/-! ## one life of the daemon -/

/-- What holds of the daemon of a life in visibility that has added `added` so far to a file of
data `data`: nothing is left over from an enforcement, the policy in memory is the file's with
what was added, and the watermark is the file's time. -/
structure Observes (data : Option (List UInt8)) (added : List (Scope × Str)) (os : Os) (d : Daemon) :
    Prop where
  quiet : d.rx = [] ∧ d.prompts = [] ∧ d.urx = [] ∧ d.readers = []
  settled : .reload ∉ d.pc.ops ∧ .openReader ∉ d.pc.ops
  starting : .loadPolicy ∈ d.pc.ops →
    added = [] ∧ (Policy.loadFile data).modeOr d.fallback = .visibility
  running : .loadPolicy ∉ d.pc.ops → d.mode = .visibility ∧
    (∀ x ∈ added, d.pol.Has ⟨.allow, x.1⟩) ∧ ∀ e, (Policy.loadFile data).Has e → d.pol.Has e
  watermark : .readMtime ∉ d.pc.ops → d.polMtime = os.policyMtime

section Life

variable {data : Option (List UInt8)} {added : List (Scope × Str)} {w w' : World} {d d' : Daemon}
  {os os' : Os} {ev : Event} {o : List Output} {inp : Input}

/-- Nothing that counts has changed. -/
theorem Observes.congr (h : Observes data added os d) (hos : os'.policy = os.policy)
    (hquiet : d'.rx = d.rx ∧ d'.prompts = d.prompts ∧ d'.urx = d.urx ∧ d'.readers = d.readers)
    (hpol : d'.pol = d.pol ∧ d'.mode = d.mode ∧ d'.fallback = d.fallback ∧ d'.polMtime = d.polMtime)
    (hpc : d'.pc.ops = d.pc.ops) : Observes data added os' d' := by
  obtain ⟨hrx, hprompts, hurx, hreaders⟩ := hquiet
  obtain ⟨hpol, hmode, hfallback, hmtime⟩ := hpol
  have htime : os'.policyMtime = os.policyMtime := by rw [Os.policyMtime, hos, Os.policyMtime]
  exact ⟨by rw [hrx, hprompts, hurx, hreaders]; exact h.quiet, hpc ▸ h.settled,
    by rw [hpc, hfallback]; exact h.starting, by rw [hpc, hmode, hpol]; exact h.running,
    by rw [hpc, hmtime, htime]; exact h.watermark⟩

omit [Casing] in
/-- What a tick and a shutdown have to do. -/
theorem observe_moves {ops : List Op} {up : Bool}
    (h : ops = [] ∨ ops = tickOps ∨ ops = stopOps up) :
    .reload ∉ ops ∧ .openReader ∉ ops ∧ .loadPolicy ∉ ops ∧ .readMtime ∉ ops := by
  obtain rfl | rfl | rfl := h
  · simp
  · decide
  · cases up <;> decide

theorem Observes.moves {pc : Pc} {lastCheck : Nat} (h : Observes data added os d)
    (hm : Moves os d pc lastCheck) : Observes data added os { d with pc, lastCheck } := by
  obtain ⟨hnil, hops⟩ := hm.ops
  obtain ⟨hreload, hreader, hload, hread⟩ := observe_moves hops
  exact ⟨h.quiet, ⟨hreload, hreader⟩, fun hmem => absurd hmem hload,
    fun _ => h.running (by simp [hnil]), fun _ => h.watermark (by simp [hnil])⟩

omit [Casing] in
theorem observe_shape : ∀ ops ∈ allShapes, ∀ op ∈ ops.head?,
    (op = .loadPolicy → .loadPolicy ∉ ops.tail) ∧ (op = .reconcile → .loadPolicy ∉ ops) ∧
    (op = .readMtime → .readMtime ∉ ops.tail) := by
  decide

omit [Casing] in
/-- Readers come with the upcall, and reloads from the watermark. -/
theorem extras_observe {op : Op} : ∀ extra ∈ op.extras,
    (.reload ∈ extra → op = .checkMtime) ∧ (.openReader ∈ extra → op = .reconcile) := by
  cases op <;> decide +revert

/-- While the watermark is the file's time, no reload is due. -/
theorem checkMtime_of_eq {d₁ : Daemon} {extra : List Op} (h : d.polMtime = os.policyMtime)
    (hrun : Op.run .checkMtime inp os d = (os', some d₁, extra)) : d₁ = d ∧ extra = [] := by
  simp only [Op.run, h, ne_eq, not_true_eq_false, if_false, Prod.mk.injEq,
    Option.some.injEq] at hrun
  exact ⟨hrun.2.1.symm, hrun.2.2.symm⟩

/-- In visibility no reader is wanted. -/
theorem reconcile_of_visibility {d₁ : Daemon} {extra : List Op} (h : d.mode = .visibility)
    (hrun : Op.run .reconcile inp os d = (os', some d₁, extra)) : .openReader ∉ extra := by
  have hwant : d.wantUpcall = false := by simp [Daemon.wantUpcall, h, Mode.enforcing]
  simp only [Op.run, hwant, Bool.false_and, Bool.false_eq_true, if_false, Bool.not_false,
    Bool.true_and] at hrun
  split at hrun <;> simp only [Prod.mk.injEq] at hrun <;> rw [← hrun.2.2] <;> decide

/-- An effect keeps the life in visibility. -/
theorem Observes.effect {op : Op} {rest extra : List Op} {next : List Op → Pc} {d₁ : Daemon}
    (h : Observes data added os d) (hfile : added = [] → os.policyData = data)
    (hshape : d.pc.ops ∈ d.pc.shapes) (heff : d.pc.Effect op rest next)
    (hrun : op.run inp os d = (os', some d₁, extra)) :
    Observes data added os' { d₁ with pc := next (extra ++ rest) } := by
  obtain ⟨hops, hnext⟩ := heff.ops
  have hall := d.pc.shapes_subset hshape
  rw [hops] at hall
  obtain ⟨hloads, hreconciles, hreads⟩ := observe_shape _ hall op rfl
  obtain ⟨hmarks, hchecks⟩ := watch_shape _ hall op rfl
  obtain ⟨hreload, hopen⟩ := hops ▸ h.settled
  rw [List.mem_cons, not_or] at hreload hopen
  obtain ⟨hfromCheck, hfromReconcile⟩ := extras_observe extra (Op.extra_mem_extras hrun)
  have hkeeps := Op.run_keeps hrun
  obtain ⟨hfallback, hmtime⟩ := Op.run_polMtime hrun
  obtain ⟨-, hprompts⟩ := Op.run_questions hrun
  obtain ⟨_, _, hos⟩ := Op.run_os hrun
  have htime : os'.policyMtime = os.policyMtime := by rw [hos]; rfl
  have hnoload : .loadPolicy ∉ extra := Op.loadPolicy_not_mem_extra (Op.extra_mem_extras hrun)
  have hnoread : .readMtime ∉ extra := Op.readMtime_not_mem_extra (Op.extra_mem_extras hrun)
  refine ⟨⟨hkeeps.rx.trans h.quiet.1, hprompts.trans h.quiet.2.1, hkeeps.urx.trans h.quiet.2.2.1,
    ?readers⟩, ⟨?reload, ?reader⟩, fun hmem => ?starting, fun hmem => ?running,
    fun hmem => ?watermark⟩
  case readers =>
    by_cases hop : op = .spawnReader
    · subst hop
      simp only [Op.run, Prod.mk.injEq, Option.some.injEq] at hrun
      rw [← hrun.2.1]
      simp [h.quiet.2.2.2]
    · exact (hkeeps.readers (Ne.symm hopen.1) hop).trans h.quiet.2.2.2
  case reload =>
    rw [hnext, List.mem_append, not_or]
    refine ⟨fun hmem => ?_, hreload.2⟩
    obtain rfl := hfromCheck hmem
    have heq := h.watermark (by rw [hops]; exact (hchecks rfl).2.1)
    rw [(checkMtime_of_eq heq hrun).2] at hmem
    cases hmem
  case reader =>
    rw [hnext, List.mem_append, not_or]
    refine ⟨fun hmem => ?_, hopen.2⟩
    obtain rfl := hfromReconcile hmem
    have hmode := (h.running (by rw [hops]; exact hreconciles rfl)).1
    exact reconcile_of_visibility hmode hrun hmem
  case starting =>
    rw [hnext, List.mem_append, or_iff_right hnoload] at hmem
    obtain ⟨hadded, hmode⟩ := h.starting (by rw [hops]; exact List.mem_cons_of_mem _ hmem)
    exact ⟨hadded, by rwa [hfallback]⟩
  case running =>
    by_cases hop : op = .loadPolicy
    · -- the policy is the file's, to which nothing has been added
      subst hop
      obtain ⟨hadded, hmode⟩ := h.starting (by rw [hops]; exact List.mem_cons_self)
      simp only [Op.run, Prod.mk.injEq, Option.some.injEq] at hrun
      obtain ⟨-, rfl, -⟩ := hrun
      simp only [Daemon.loadFrom, hfile hadded, hmode, hadded]
      exact ⟨trivial, by simp, fun _ he => he⟩
    · obtain ⟨hpol, hmode⟩ := hkeeps.pol hop (Ne.symm hreload.1)
      simp only [hpol, hmode]
      exact h.running (mt (heff.mem_iff hop hnoload).mpr hmem)
  case watermark =>
    by_cases hop : op = .readMtime
    · subst hop
      simp only [Op.run, Prod.mk.injEq, Option.some.injEq] at hrun
      obtain ⟨rfl, rfl, -⟩ := hrun
      rfl
    · have hbefore : .readMtime ∉ d.pc.ops := mt (heff.mem_iff hop hnoread).mpr hmem
      rw [htime, ← h.watermark hbefore]
      by_cases hcheck : op = .checkMtime
      · subst hcheck
        rw [(checkMtime_of_eq (h.watermark hbefore) hrun).1]
      · exact hmtime hop hcheck

/-! ## one packet -/

omit [Casing] in
/-- Lines that cannot be appended are as good as not there. -/
theorem appendLines_filter (ok : Str → Bool) (t : Option (List UInt8)) (ls : List Str) :
    appendLines ok t ls = appendLines (fun _ => true) t (ls.filter ok) := by
  induction ls generalizing t with
  | nil => rfl
  | cons l ls ih =>
      by_cases hl : ok l = true
      · rw [List.filter_cons_of_pos hl, appendLines, appendLines, List.foldl_cons, List.foldl_cons,
          if_pos hl, if_pos rfl]
        exact ih _
      · rw [List.filter_cons_of_neg hl, appendLines, List.foldl_cons, if_neg hl]
        exact ih _

/-- A flow that is judged takes the slow path. -/
theorem handlePacket_of_judged {pkt : Packet} {src : Sockaddr} {f : Flow}
    (hpkt : inp.packet = some (pkt, src)) (h : d.judged inp = some f) :
    handlePacket inp os d pkt src = slowPath inp os d pkt src f := by
  simp only [Daemon.judged, hpkt] at h
  split at h
  · rename_i heq
    obtain ⟨rfl, rfl⟩ := Prod.mk.inj (Option.some.inj heq)
    obtain ⟨hparse, hflow⟩ := Option.filter_eq_some_iff.mp h
    obtain ⟨hdns, hsrc, hopens, hlookup⟩ := of_decide_eq_true hflow
    simp only [handlePacket, hparse, if_neg hdns, hsrc, ne_eq, not_true_eq_false, if_false,
      if_pos hopens, hlookup]
  · cases h

/-- Any other packet changes names at most. -/
theorem handlePacket_of_not_judged {pkt : Packet} {src : Sockaddr} (hpc : d.pc = .recv)
    (hpkt : inp.packet = some (pkt, src)) (h : d.judged inp = none) :
    let r := handlePacket inp os d pkt src
    r.os = os ∧ r.next = .top ∧ ∃ names, r.daemon = { d with names } := by
  simp only [Daemon.judged, hpc, hpkt] at h
  unfold handlePacket
  cases hparse : parse pkt with
  | none => exact ⟨rfl, rfl, _, rfl⟩
  | some f =>
      have hflow := Option.filter_eq_none_iff.mp h f hparse
      rw [decide_eq_true_eq] at hflow
      simp only
      split
      · exact ⟨rfl, rfl, _, rfl⟩
      · rename_i hdns
        split
        · exact ⟨rfl, rfl, _, rfl⟩
        · rename_i hsrc
          split
          · rename_i hopens
            cases hlookup : d.decided.lookup f.key with
            | some v => exact ⟨rfl, rfl, _, rfl⟩
            | none => exact absurd ⟨hdns, not_not.mp hsrc, hopens, hlookup⟩ hflow
          · exact ⟨rfl, rfl, _, rfl⟩

/-- A packet that is not judged adds nothing. -/
theorem adds_of_not_judged (hd : w.daemon = some d) (hjudged : d.judged inp = none) :
    w.adds (.daemon inp) = [] := by
  simp only [World.adds, World.asks, hd, hjudged, Option.bind_some, Option.map_none]

/-- Nor does one with a verdict. -/
theorem adds_of_settled {f : Flow} (hd : w.daemon = some d) (hjudged : d.judged inp = some f)
    (hv : slowVerdict d.pol w.os.env d.names f.key ≠ .ask) : w.adds (.daemon inp) = [] := by
  simp only [World.adds, World.asks, hd, hjudged, Option.bind_some, Option.map_some]
  exact if_neg fun hask => hv hask.2

/-- What visibility logs of a packet without one. -/
theorem adds_of_learned {f : Flow} {pol : Policy} {ls : List Str} (hd : w.daemon = some d)
    (hvis : d.mode = .visibility) (hjudged : d.judged inp = some f)
    (hv : slowVerdict d.pol w.os.env d.names f.key = .ask)
    (hlearned : d.pol.learned (flowQuery w.os.env d.names f.key).exe
      (flowQuery w.os.env d.names f.key).dst (flowQuery w.os.env d.names f.key).host
      (flowQuery w.os.env d.names f.key).dport = (pol, ls)) :
    w.adds (.daemon inp) = (ls.filter inp.appendOk).map fun l =>
      ((flowQuery w.os.env d.names f.key).learnedScope, l) := by
  simp only [World.adds, World.asks, hd, hjudged, Option.bind_some, Option.map_some, hlearned]
  exact if_pos ⟨hvis, hv⟩

/-- The policy in memory has what was added before, and what is added now. -/
theorem Observes.learned {q : Query} {pol : Policy} {ls ls' : List Str}
    (h : Observes data added os d) (hloaded : .loadPolicy ∉ d.pc.ops)
    (hlearned : d.pol.learned q.exe q.dst q.host q.dport = (pol, ls)) :
    (∀ x ∈ added ++ ls'.map fun l => (q.learnedScope, l), pol.Has ⟨.allow, x.1⟩) ∧
      ∀ e, (Policy.loadFile data).Has e → pol.Has e := by
  obtain ⟨-, hrules, hfirst⟩ := h.running hloaded
  have hpol : pol = d.pol.insert ⟨.allow, q.learnedScope⟩ := by
    rw [← learned_insert, hlearned]
  rw [hpol]
  refine ⟨fun x hx => ?_, fun e he => ?_⟩
  · rw [Policy.has_insert]
    obtain hx | hx := List.mem_append.mp hx
    · exact .inr (hrules x hx)
    · obtain ⟨l, -, rfl⟩ := List.mem_map.mp hx
      exact .inl rfl
  · rw [Policy.has_insert]
    exact .inr (hfirst e he)

/-- A packet adds what is logged, to the policy in memory and to the file. -/
theorem Observes.packet {pkt : Packet} {src : Sockaddr} (h : Observes data added w.os d)
    (hd : w.daemon = some d) (hpc : d.pc = .recv) (hpkt : inp.packet = some (pkt, src)) :
    let r := handlePacket inp w.os d pkt src
    Observes data (added ++ w.adds (.daemon inp)) r.os { r.daemon with pc := r.next } ∧
      r.os.policyData =
        appendLines (fun _ => true) w.os.policyData ((w.adds (.daemon inp)).map (·.2)) := by
  intro r
  have hnil : d.pc.ops = [] := by
    rw [hpc]
    rfl
  have hvis : d.mode = .visibility := (h.running (by simp [hnil])).1
  cases hjudged : d.judged inp with
  | none =>
      obtain ⟨hos, hnext, names, hdaemon⟩ : r.os = w.os ∧ r.next = .top ∧
          ∃ names, r.daemon = { d with names } := handlePacket_of_not_judged hpc hpkt hjudged
      rw [adds_of_not_judged hd hjudged, List.append_nil, hos, hnext, hdaemon]
      exact ⟨h.congr rfl ⟨rfl, rfl, rfl, rfl⟩ ⟨rfl, rfl, rfl, rfl⟩ hnil.symm, rfl⟩
  | some f =>
      have hr : r = slowPath inp w.os d pkt src f := handlePacket_of_judged hpkt hjudged
      obtain ⟨kern, -, hslow⟩ := slowPath_cases inp w.os d pkt src f
      rw [← hr] at hslow
      generalize r = r at hslow
      cases hslow with
      | @settled v os' d' hv hpush =>
          have hsettled : slowVerdict d.pol w.os.env d.names f.key ≠ .ask := by
            rw [hv]
            cases v with
            | allow | deny =>
                intro hask
                cases hask
          rw [adds_of_settled hd hjudged hsettled, List.append_nil]
          obtain ⟨rfl, rfl⟩ | ⟨_, -, hmode, -, -⟩ := pushSettled_cases hpush
          · exact ⟨h.congr rfl ⟨rfl, rfl, rfl, rfl⟩ ⟨rfl, rfl, rfl, rfl⟩ hnil.symm, rfl⟩
          · rw [hvis] at hmode
            cases hmode
      | held hv hmode hraise =>
          rw [hvis] at hmode
          cases hmode
      | @learned pol ls hv hmode hlearned =>
          rw [adds_of_learned hd hvis hjudged hv hlearned]
          refine ⟨⟨h.quiet, by simp [Pc.ops], fun hmem => by simp [Pc.ops] at hmem,
            fun _ => ⟨hvis, h.learned (by simp [hnil]) hlearned⟩,
            fun hmem => absurd (List.mem_singleton_self _) hmem⟩, ?_⟩
          rw [Os.appendPolicy_data, appendLines_filter, List.map_map]
          exact congrArg _ (List.map_id _).symm

/-! ## every step -/

omit [Casing] in
/-- Without a packet nothing is judged. -/
theorem judged_eq_none (h : ∀ pkt src, d.pc = .recv → inp.packet ≠ some (pkt, src)) :
    d.judged inp = none := by
  unfold Daemon.judged
  split
  · rename_i pkt src hpc hpkt
    exact absurd hpkt (h pkt src hpc)
  · rfl

theorem adds_of_asks_none (h : w.asks ev = none) : w.adds ev = [] := by
  cases ev with
  | daemon inp =>
      simp only [World.adds, h]
      split
      · rename_i hq
        cases hq
      · rfl
  | _ => rfl

/-- The main thread adds what is logged. -/
theorem Observes.step (h : Observes data added w.os d) (hfile : added = [] → w.os.policyData = data)
    (hshape : Shaped w) (hd : w.daemon = some d) (hstep : d.step inp w.os = (w', o)) :
    (∀ d', w'.daemon = some d' → Observes data (added ++ w.adds (.daemon inp)) w'.os d') ∧
      w'.os.policyData =
        appendLines (fun _ => true) w.os.policyData ((w.adds (.daemon inp)).map (·.2)) := by
  by_cases hpacket : ∃ pkt src, d.pc = .recv ∧ inp.packet = some (pkt, src)
  · obtain ⟨pkt, src, hpc, hpkt⟩ := hpacket
    simp only [Daemon.step, hpc, hpkt] at hstep
    obtain ⟨rfl, -⟩ := Prod.mk.inj hstep
    obtain ⟨hobs, htext⟩ := h.packet hd hpc hpkt
    refine ⟨fun d' hd' => ?_, htext⟩
    obtain rfl := Option.some.inj hd'
    exact hobs
  · have hnone : d.judged inp = none :=
      judged_eq_none fun pkt src hpc hpkt => hpacket ⟨pkt, src, hpc, hpkt⟩
    rw [adds_of_not_judged hd hnone, List.append_nil]
    cases mainStep_of_step hstep with
    | moves hm =>
        refine ⟨fun d' hd' => ?_, rfl⟩
        obtain rfl := Option.some.inj hd'
        exact h.moves hm
    | exits hpc =>
        refine ⟨fun d' hd' => ?_, ?_⟩
        · cases hd'
        · change (closeAll w.os d).policyData = w.os.policyData
          rw [Os.policyData, (closeAll_frame _ _).policy, Os.policyData]
    | answer hpc hrx =>
        rw [h.quiet.1] at hrx
        cases hrx
    | upcall hpc hurx =>
        rw [h.quiet.2.2.1] at hurx
        cases hurx
    | @effect op rest extra next os' d₁ heff hrun =>
        cases d₁ with
        | none =>
            refine ⟨fun d' hd' => ?_, ?_⟩
            · cases hd'
            · change os'.policyData = w.os.policyData
              exact policyData_congr (Op.run_policy hrun)
        | some d₁ =>
            refine ⟨fun d' hd' => ?_, ?_⟩
            · obtain rfl := Option.some.inj hd'
              exact h.effect hfile (hshape d hd) heff hrun
            · obtain ⟨_, _, hos⟩ := Op.run_os hrun
              rw [hos]
              rfl
    | packet hpc hpkt => exact absurd ⟨_, _, hpc, hpkt⟩ hpacket

/-- Around the main thread nothing is added. -/
theorem Observes.outside (h : ∀ d, w.daemon = some d → Observes data added w.os d)
    (hout : Outside w ev w' o) (hev : Undisturbing ev) :
    (∀ d', w'.daemon = some d' → Observes data added w'.os d') ∧
      w'.os.policyData = w.os.policyData := by
  have hpolicy : w'.os.policy = w.os.policy := by
    obtain hsame | ⟨_, rfl, -⟩ := hout.policy
    · exact hsame
    · exact hev.elim
  refine ⟨fun d' hd' => ?_, by rw [Os.policyData, hpolicy, Os.policyData]⟩
  have same : ∀ d, w.daemon = some d →
      (d'.rx = d.rx ∧ d'.prompts = d.prompts ∧ d'.urx = d.urx ∧ d'.readers = d.readers) →
      SameMain d d' → Observes data added w'.os d' := by
    rintro d hd hquiet ⟨_, _, _, _, _, rfl⟩
    exact (h d hd).congr hpolicy hquiet ⟨rfl, rfl, rfl, rfl⟩ rfl
  cases hout with
  | startDaemon => exact hev.elim
  | crash => cases hd'
  | signal hd =>
      obtain rfl := Option.some.inj hd'
      exact same _ hd ⟨rfl, rfl, rfl, rfl⟩ ⟨_, _, _, _, _, rfl⟩
  | promptDone hd hp =>
      rw [(h _ hd).quiet.2.1] at hp
      cases hp
  | readerEnd hd hr | readerRead hd hr | readerSend hd hr =>
      rw [(h _ hd).quiet.2.2.2] at hr
      cases hr
  | loadModule | unloadModule | noHook | hook | changeEnv | wait | pfAnchor | setFailmode |
    kernelReset => exact same d' hd' ⟨rfl, rfl, rfl, rfl⟩ ⟨_, _, _, _, _, rfl⟩
  | editPolicy => exact hev.elim

/-- A step adds one rule at most, and one that was asked about. -/
theorem adds_cases (w : World) (ev : Event) : w.adds ev = [] ∨
    ∃ d q l, w.daemon = some d ∧ w.asks ev = some q ∧ d.pc = .recv ∧
      judge d.pol w.os.env q.exe q.dst q.host q.dport = .ask ∧
      w.adds ev = [(q.learnedScope, l)] := by
  cases ev with
  | daemon inp =>
      cases hd : w.daemon with
      | none => exact .inl (by simp only [World.adds, hd])
      | some d =>
          cases hq : w.asks (.daemon inp) with
          | none => exact .inl (adds_of_asks_none hq)
          | some q =>
              by_cases hlearn : d.mode = .visibility ∧
                  judge d.pol w.os.env q.exe q.dst q.host q.dport = .ask
              · obtain ⟨l, hl⟩ := learned_line d.pol q
                have hpc : d.pc = .recv := by
                  by_contra hpc
                  have hnone : d.judged inp = none := judged_eq_none fun _ _ h => absurd h hpc
                  simp only [World.asks, hd, hnone, Option.bind_some, Option.map_none] at hq
                  cases hq
                by_cases hok : inp.appendOk l = true
                · refine .inr ⟨d, q, l, rfl, rfl, hpc, hlearn.2, ?_⟩
                  simp only [World.adds, hd, hq, if_pos hlearn, hl, List.filter_cons_of_pos hok,
                    List.filter_nil, List.map_cons, List.map_nil]
                · left
                  simp only [World.adds, hd, hq, if_pos hlearn, hl, List.filter_cons_of_neg hok,
                    List.filter_nil, List.map_nil]
              · exact .inl (by simp only [World.adds, hd, hq, if_neg hlearn])
  | _ => exact .inl rfl

end Life

/-! ## the run -/

/-- What every step of a life in visibility keeps. -/
structure Life (data : Option (List UInt8)) (s : Learning) : Prop where
  shaped : Shaped s.world
  daemon : ∀ d, s.world.daemon = some d → Observes data s.added s.world.os d
  once : (s.added.map (·.1)).Nodup
  new : ∀ x ∈ s.added, ¬ (Policy.loadFile data).Has ⟨.allow, x.1⟩
  asked : ∀ x ∈ s.added, x.1 ∈ s.asked.map Query.learnedScope
  file : s.world.os.policyData = appendLines (fun _ => true) data (s.added.map (·.2))

variable {data : Option (List UInt8)} {s s' : Learning} {w : World}

theorem Life.of_observing (h : w.Observing) : Life w.os.policyData ⟨w, [], []⟩ := by
  obtain ⟨fallback, hd, hmode⟩ := h
  have hstart : ∀ d, w.daemon = some d → d = .new fallback w.os.now := fun d hd' =>
    Option.some.inj (hd'.symm.trans hd)
  refine ⟨fun d hd' => ?_, fun d hd' => ?_, List.nodup_nil, nofun, nofun, rfl⟩
  · obtain rfl := hstart d hd'
    change startOps ∈ startShapes
    decide
  · obtain rfl := hstart d hd'
    have hops : (Daemon.new fallback w.os.now).pc.ops = startOps := rfl
    refine ⟨⟨rfl, rfl, rfl, rfl⟩, by rw [hops]; decide, fun _ => ⟨rfl, hmode⟩, fun hmem => ?_,
      fun hmem => ?_⟩
    · rw [hops] at hmem
      exact absurd hmem (by decide)
    · rw [hops] at hmem
      exact absurd hmem (by decide)

/-- The rule that a step adds is not among those added before, nor among the file's. -/
theorem Life.adds_new {ev : Event} (h : Life data s) (hnew : LearnsNew s.world ev) :
    ∀ x ∈ s.world.adds ev, x.1 ∉ s.added.map (·.1) ∧ ¬ (Policy.loadFile data).Has ⟨.allow, x.1⟩ := by
  intro x hx
  obtain hnil | ⟨d, q, l, hd, hq, hpc, hask, hadds⟩ := adds_cases s.world ev
  · rw [hnil] at hx
    cases hx
  · rw [hadds] at hx
    obtain rfl := List.mem_singleton.mp hx
    obtain ⟨-, hrules, hfirst⟩ := (h.daemon d hd).running (by simp [hpc, Pc.ops])
    have hno := not_has_of_learns hnew hd hq hask
    refine ⟨fun hmem => ?_, fun hhas => hno (hfirst _ hhas)⟩
    obtain ⟨y, hy, hscope⟩ := List.mem_map.mp hmem
    have hhas := hrules y hy
    rw [hscope] at hhas
    exact hno hhas

theorem Life.step {ev : Event} {o : List Output} (h : Life data s) (hev : Undisturbing ev)
    (hnew : LearnsNew s.world ev) (hstep : s.step ev = some (s', o)) : Life data s' := by
  obtain ⟨⟨w', o'⟩, hw', hs'⟩ := Option.map_eq_some_iff.mp hstep
  obtain ⟨rfl, rfl⟩ := Prod.mk.inj hs'
  have hfile : s.added = [] → s.world.os.policyData = data := fun hnil => by
    rw [h.file, hnil]
    rfl
  have hobs : (∀ d', w'.daemon = some d' → Observes data (s.added ++ s.world.adds ev) w'.os d') ∧
      w'.os.policyData =
        appendLines (fun _ => true) s.world.os.policyData ((s.world.adds ev).map (·.2)) := by
    by_cases hdaemon : ∃ inp, ev = .daemon inp
    · obtain ⟨inp, rfl⟩ := hdaemon
      obtain ⟨d, hd, hmain⟩ := Option.map_eq_some_iff.mp hw'
      exact (h.daemon d hd).step hfile h.shaped hd hmain
    · have hno : ∀ inp, ev ≠ .daemon inp := fun inp heq => hdaemon ⟨inp, heq⟩
      have hadds : s.world.adds ev = [] := by
        refine adds_of_asks_none ?_
        cases ev with
        | daemon inp => exact absurd rfl (hno inp)
        | _ => rfl
      rw [hadds, List.append_nil]
      exact Observes.outside h.daemon (outside_of_step hw' hno) hev
  refine ⟨step_shaped hw' h.shaped, hobs.1, ?once, ?new, ?asked, ?file⟩
  case once =>
    rw [List.map_append, List.nodup_append]
    refine ⟨h.once, ?_, fun a ha b hb heq => ?_⟩
    · obtain hnil | ⟨_, _, _, -, -, -, -, hadds⟩ := adds_cases s.world ev
      · rw [hnil]
        exact List.nodup_nil
      · rw [hadds]
        exact List.nodup_singleton _
    · obtain ⟨x, hx, rfl⟩ := List.mem_map.mp hb
      exact (h.adds_new hnew x hx).1 (heq ▸ ha)
  case new =>
    intro x hx
    obtain hx | hx := List.mem_append.mp hx
    · exact h.new x hx
    · exact (h.adds_new hnew x hx).2
  case asked =>
    intro x hx
    rw [List.map_append, List.mem_append]
    obtain hx | hx := List.mem_append.mp hx
    · exact .inl (h.asked x hx)
    · obtain hnil | ⟨_, q, _, -, hq, -, -, hadds⟩ := adds_cases s.world ev
      · rw [hnil] at hx
        cases hx
      · rw [hadds] at hx
        obtain rfl := List.mem_singleton.mp hx
        right
        simp [hq]
  case file =>
    change w'.os.policyData = _
    rw [hobs.2, h.file, List.map_append, appendLines_append]

/-- What is added once is bounded by what was asked about. -/
theorem Life.learnedOnce (h : Life data s) : LearnedOnce data s where
  once := h.once
  new := h.new
  bound := by
    classical
    have hsub : (s.added.map (·.1)).toFinset ⊆ (s.asked.map Query.learnedScope).toFinset := by
      intro scope hscope
      obtain ⟨x, hx, rfl⟩ := List.mem_map.mp (List.mem_toFinset.mp hscope)
      exact List.mem_toFinset.mpr (h.asked x hx)
    calc s.added.length
      _ = (s.added.map (·.1)).toFinset.card := by
        rw [List.toFinset_card_of_nodup h.once, List.length_map]
      _ ≤ _ := Finset.card_le_card hsub
  file := h.file

/-- **Visibility learns each destination once**, in a life of the daemon in which the flows of a
binary that differs from its pin are judged only while they have no rule. -/
theorem learns_once (hw : w.Observing)
    (hrun : Run Learning.step (fun s ev => Undisturbing ev ∧ LearnsNew s.world ev) ⟨w, [], []⟩ s) :
    LearnedOnce w.os.policyData s := by
  refine Life.learnedOnce (hrun.invariant (P := Life w.os.policyData) (.of_observing hw) ?_)
  intro t ev u o ht hok hstep
  exact ht.step hok.1 hok.2 hstep

omit [Casing] in
/-- A machine in visibility on which `/a` owns every socket and hashes to `aa`, and whose policy
pins `/a` to a digest. -/
def World.pinned (sha : String) : World where
  os := { World.idle.os with
    policy := some (.ofText ("mode visibility\napp-id ".toList ++ sha.toList ++ "\t/a\n".toList) 1)
    env := ⟨fun _ => some ⟨7, "a".toList, "/a".toList, "exact".toList⟩,
      fun _ => some ⟨"aa".toList, by decide, by decide⟩⟩ }
  daemon := some (.new .enforcement 0)

omit [Casing] in
/-- The daemon comes up and meets the same datagram twice. -/
def twiceEvents : List Event :=
  List.replicate 9 (.daemon {}) ++
    [.daemon { packet := some (learnedPacket, ⟨0, 0⟩), mtime := 2 }] ++
    List.replicate 6 (.daemon {}) ++
    [.daemon { packet := some (learnedPacket, ⟨0, 0⟩), mtime := 3 }]

omit [Casing] in
theorem undisturbing_twiceEvents : ∀ ev ∈ twiceEvents, Undisturbing ev := by
  simp only [twiceEvents, List.mem_append]
  rintro ev (((h | h) | h) | h)
  · rw [List.eq_of_mem_replicate h]
    trivial
  · rw [List.mem_singleton.mp h]
    trivial
  · rw [List.eq_of_mem_replicate h]
    trivial
  · rw [List.mem_singleton.mp h]
    trivial

/-- Does a step judge no binary that differs from its pin? -/
def keepsPins (w : World) (ev : Event) : Bool :=
  (w.asks ev).all fun q => w.daemon.all fun d => !q.exe.any (idChanged d.pol w.os.env)

theorem learnsNew_of_keepsPins {ev : Event} (h : keepsPins w ev = true) : LearnsNew w ev := by
  intro d q hd hq hchanged
  simp [keepsPins, hd, hq, hchanged] at h

omit [Casing] in
/-- While `/a` is the pinned binary its datagrams teach one rule. -/
theorem learns_once_datagram :
    letI := asciiCasing
    ∃ s : Learning, s.asked.length = 2 ∧ s.added.length = 1 ∧
      LearnedOnce (World.pinned "aa").os.policyData s := by
  let _ := asciiCasing
  have hexec : (exec Learning.step (fun s ev => keepsPins s.world ev = true)
      ⟨World.pinned "aa", [], []⟩ twiceEvents).any
        (fun s => s.asked.length = 2 ∧ s.added.length = 1) = true := by decide +kernel
  obtain ⟨s, hrun, hp⟩ := exists_run_of_exec hexec
  rw [decide_eq_true_eq] at hp
  refine ⟨s, hp.1, hp.2, learns_once ⟨.enforcement, rfl, by decide +kernel⟩
    (hrun.mono fun s ev h => ⟨undisturbing_twiceEvents ev h.2, learnsNew_of_keepsPins h.1⟩)⟩

omit [Casing] in
/-- Once it has been replaced, each datagram teaches the rule again. -/
theorem learns_again :
    letI := asciiCasing
    ¬ ∀ (w : World) (s : Learning), w.Observing →
      Run Learning.step (fun _ ev => Undisturbing ev) ⟨w, [], []⟩ s →
        LearnedOnce w.os.policyData s := by
  let _ := asciiCasing
  intro h
  have hexec : (exec Learning.step (fun _ _ => True) ⟨World.pinned "bb", [], []⟩ twiceEvents).any
      (fun s => ¬ (s.added.map (·.1)).Nodup) = true := by decide +kernel
  obtain ⟨s, hrun, hp⟩ := exists_run_of_exec hexec
  rw [decide_eq_true_eq] at hp
  exact hp (h (World.pinned "bb") s ⟨.enforcement, rfl, by decide +kernel⟩
    (hrun.mono fun _ ev h => undisturbing_twiceEvents ev h.2)).once

end Pfsnitch
