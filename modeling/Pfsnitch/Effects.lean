import Pfsnitch.Commands

/-!
# Pfsnitch.Effects

An `allow` or a `deny` on the command line, and the daemon that runs.

The rule is appended to the file, the next tick finds the file changed and loads it, and
what the daemon records from then on is added to what it has.  So from the end of the first
tick after the command on, the rule is in force (`command_takes_effect`).
-/

namespace Pfsnitch

open Lib

variable [Casing]

variable {w w' : World} {d d' : Daemon} {ev : Event} {o : List Output} {inp : Input} {os os' : Os}
  {e : Entry} {p : Policy} {file : Option (List UInt8)} {ls : List Str}

/-! ## entries stay -/

omit [Casing] in
/-- What is recorded is added to the policy. -/
theorem has_answered [Casing] {ans : Answer} {exe : Option Str} {dst : IpAddr} {host : Option Str}
    {dport : UInt16} {sha : Option Digest} (h : p.Has e) :
    (p.answered ans exe dst host dport sha).1.Has e := by
  obtain ⟨pins, hpins⟩ := repin_frame p ans exe sha
  have hrepin : (p.repin ans exe sha).1.Has e := by
    rw [hpins]
    obtain ⟨_ | _, _ | _ | _ | _ | _⟩ := e <;> exact h
  rw [answered_eq]
  cases answerEntry ans exe dst host dport with
  | none => exact hrepin
  | some f => exact (Policy.has_insert _ f e).mpr (.inr hrepin)

theorem has_learned {exe : Option Str} {dst : IpAddr} {host : Option Str} {dport : UInt16}
    (h : p.Has e) : (p.learned exe dst host dport).1.Has e := by
  rw [Policy.learned, record_eq]
  split
  · exact (Policy.has_insert _ _ e).mpr (.inr h)
  · exact h

/-- The file ends its last line, and one of its lines denotes the entry. -/
structure FileHas (file : Option (List UInt8)) (e : Entry) : Prop where
  terminated : EndsInNewline file
  has : (Policy.loadFile file).Has e

/-- A line that is appended to whole lines leaves them as they are. -/
theorem FileHas.appendBytes (h : FileHas file e) (l : Str) :
    FileHas (some (appendBytes file l)) e where
  terminated := endsInNewline_appendBytes h.terminated l
  has := by
    obtain ⟨text, htext, hterm⟩ := h.terminated
    obtain ⟨raw, hraw, he⟩ := Policy.has_load.mp h.has
    refine Policy.has_load.mpr ⟨raw, ?_, he⟩
    rw [textLines_of_decode htext] at hraw
    rw [Pfsnitch.appendBytes, readToString_append, htext, Option.map_some, textLines,
      lines_append hterm]
    exact List.mem_append_left _ hraw

theorem FileHas.appendLines {appendOk : Str → Bool} (h : FileHas file e) :
    FileHas (appendLines appendOk file ls) e := by
  induction ls generalizing file with
  | nil => exact h
  | cons l ls ih =>
      rw [Pfsnitch.appendLines, List.foldl_cons]
      split
      · exact ih (h.appendBytes l)
      · exact ih h

theorem FileHas.appendPolicy (h : FileHas os.policyData e) (inp : Input) :
    FileHas (os.appendPolicy inp ls).policyData e := by
  rw [Os.appendPolicy_data]
  exact h.appendLines

/-- What loads the file has what the file says. -/
theorem FileHas.loaded {op : Op} {extra : List Op} (h : FileHas os.policyData e)
    (hrun : op.run inp os d = (os', some d', extra)) (hop : op = .loadPolicy ∨ op = .reload) :
    d'.pol.Has e := by
  have hpol := (Op.run_loads hrun hop).pol
  rw [policyData_congr (Op.run_policy hrun)] at hpol
  exact hpol.symm ▸ h.has

/-- A step of the main thread keeps what the file says, and what is in force stays. -/
theorem MainStep.fileHas (h : MainStep inp os d w' o) (hfile : FileHas os.policyData e) :
    FileHas w'.os.policyData e ∧ ∀ d', w'.daemon = some d' → d.pol.Has e → d'.pol.Has e := by
  have same {os' : Os} (hos : os'.policy = os.policy) : FileHas os'.policyData e := by
    rw [policyData_congr hos]
    exact hfile
  cases h with
  | moves =>
      refine ⟨hfile, fun d' hd' hpol => ?_⟩
      obtain rfl := Option.some.inj hd'
      exact hpol
  | exits => exact ⟨same (closeAll_frame _ _).policy, fun d' hd' => nomatch hd'⟩
  | @answer ans p rx os' d₁ hpc hrx hdrain =>
      obtain ⟨os₁, kern, pol, ls, hr, ha, rfl, rfl⟩ := drainAnswer_cases hdrain
      have hos : FileHas os₁.policyData e := by
        rw [policyData_congr (Os.sameRest_of_resolveAll hr).policy]
        exact hfile
      refine ⟨hos.appendPolicy inp, fun d' hd' hpol => ?_⟩
      obtain rfl := Option.some.inj hd'
      have hgrown : (d.pol.answered ans p.exe p.dst p.host p.dport (p.exe.bind os.env.hash)).1.Has e :=
        has_answered hpol
      rw [ha] at hgrown
      exact hgrown
  | upcall hpc hurx hdrain =>
      cases drainUpcall_cases hdrain with
      | resolved hv hr =>
          refine ⟨same (Os.sameRest_of_resolveAll hr).policy, fun d' hd' hpol => ?_⟩
          obtain rfl := Option.some.inj hd'
          exact hpol
      | asked hpath hv hraise =>
          obtain ⟨⟨_, _, rfl⟩, -⟩ := raise_cases hraise
          refine ⟨hfile, fun d' hd' hpol => ?_⟩
          obtain rfl := Option.some.inj hd'
          exact hpol
  | @effect op rest extra next os' od hpc hrun =>
      refine ⟨same (Op.run_policy hrun), fun d' hd' hpol => ?_⟩
      obtain ⟨d₁, rfl, rfl⟩ := Option.map_eq_some_iff.mp hd'
      by_cases hload : op = .loadPolicy ∨ op = .reload
      · have hpol₁ : d₁.pol.Has e := hfile.loaded hrun hload
        exact hpol₁
      · obtain ⟨hload, hreload⟩ := not_or.mp hload
        exact ((Op.run_keeps hrun).pol hload hreload).1.symm ▸ hpol
  | @packet pkt src r hpc hpkt hr =>
      have hcase := hr ▸ handlePacket_cases inp os d pkt src
      obtain ⟨hos, hpol, -⟩ | ⟨f, kern, pol, ls, -, -, hl, rfl⟩ := hcase.policy
      · refine ⟨same hos, fun d' hd' hhas => ?_⟩
        obtain rfl := Option.some.inj hd'
        exact hpol.symm ▸ hhas
      · refine ⟨hfile.appendPolicy inp, fun d' hd' hhas => ?_⟩
        obtain rfl := Option.some.inj hd'
        have hgrown := congrArg Prod.fst hl ▸ has_learned hhas
        exact hgrown

/-! ## from a tick on -/

omit [Casing] in
/-- Nobody else edits the file. -/
def Unedited (ev : Event) : Prop := ∀ file, ev ≠ .editPolicy file

/-- Nobody else edits the file; an answer that writes to it gives it another time than the
watermark; and a flow is learned only when the watermark is the file's time. -/
def Timely (w : World) (ev : Event) : Prop :=
  Unedited ev ∧ ∀ inp d, ev = .daemon inp → w.daemon = some d →
    (∀ ans p rx, d.pc = .answers → d.rx = (ans, p) :: rx →
      let ls := (d.pol.answered ans p.exe p.dst p.host p.dport (p.exe.bind w.os.env.hash)).2
      (w.os.appendPolicy inp ls).policy = w.os.policy ∨
        (w.os.appendPolicy inp ls).policyMtime ≠ d.polMtime) ∧
    ∀ pkt src, d.pc = .recv → inp.packet = some (pkt, src) →
      (handlePacket inp w.os d pkt src).next = .learning [.readMtime] →
        d.polMtime = w.os.policyMtime

omit [Casing] in
/-- The daemon has the entry, or will load the file, or the watermark, which is not to be
taken again before the comparison, is not the file's time. -/
def Heeded (e : Entry) (os : Os) (d : Daemon) : Prop :=
  (.loadPolicy ∈ d.pc.ops ∨ .reload ∈ d.pc.ops) ∨ d.pol.Has e ∨
    .readMtime ∉ d.pc.ops ∧ d.polMtime ≠ os.policyMtime

omit [Casing] in
/-- Between two effects the daemon has the entry, or the file has another time. -/
theorem heeded_of_idle (hops : d.pc.ops = []) :
    Heeded e os d ↔ d.pol.Has e ∨ d.polMtime ≠ os.policyMtime := by
  rw [Heeded, hops]
  simp

omit [Casing] in
/-- A step between two effects that keeps the entry, or the times apart. -/
theorem Heeded.idle (h : Heeded e os d) (hops : d.pc.ops = []) (hread : .readMtime ∉ d'.pc.ops)
    (hhas : d.pol.Has e → d'.pol.Has e)
    (hmtime : d.polMtime ≠ os.policyMtime → d'.polMtime ≠ os'.policyMtime) : Heeded e os' d' :=
  ((heeded_of_idle hops).mp h).elim (fun hpol => .inr (.inl (hhas hpol)))
    fun hne => .inr (.inr ⟨hread, hmtime hne⟩)

/-- An effect takes the watermark only when the entry is there, or compares it, or leaves it. -/
theorem Heeded.effect {op : Op} {rest extra : List Op} {next : List Op → Pc} {d₁ : Daemon}
    (hinv : Heeded e os d) (hpc : d.pc.Effect op rest next)
    (hrun : op.run inp os d = (os', some d₁, extra))
    (hhas : d.pol.Has e → d₁.pol.Has e) (hload : op = .loadPolicy ∨ op = .reload → d₁.pol.Has e) :
    Heeded e os' { d₁ with pc := next (extra ++ rest) } := by
  obtain ⟨hops, hnext⟩ := hpc.ops
  by_cases hop : op = .loadPolicy ∨ op = .reload
  · exact .inr (.inl (hload hop))
  obtain ⟨hnoload, hnoreload⟩ := not_or.mp hop
  obtain hdue | hpol | ⟨hread, hmtime⟩ := hinv
  · exact .inl (hdue.imp (hpc.mem_next hnoload) (hpc.mem_next hnoreload))
  · exact .inr (.inl (hhas hpol))
  have hne : op ≠ .readMtime := by
    rintro rfl
    exact hread (hops ▸ List.mem_cons_self)
  by_cases hcheck : op = .checkMtime
  · -- the file has another time: the reload is due
    subst hcheck
    simp only [Op.run, if_pos hmtime.symm, Prod.mk.injEq] at hrun
    obtain ⟨-, -, rfl⟩ := hrun
    left; right
    rw [hnext]
    exact List.mem_append_left _ (List.mem_singleton_self _)
  · right; right
    refine ⟨?_, ?_⟩
    · rwa [hpc.mem_iff hne (Op.readMtime_not_mem_extra (Op.extra_mem_extras hrun))]
    · rw [(Op.run_polMtime hrun).2 hne hcheck, policyMtime_congr (Op.run_policy hrun)]
      exact hmtime

theorem MainStep.heeded (h : MainStep inp w.os d w' o) (hd : w.daemon = some d)
    (hd' : w'.daemon = some d') (hok : Timely w (.daemon inp)) (hfile : FileHas w.os.policyData e)
    (hinv : Heeded e w.os d) : Heeded e w'.os d' := by
  have hhas := (h.fileHas hfile).2 d' hd'
  obtain ⟨hanswer, hlearn⟩ := hok.2 inp d rfl hd
  cases h with
  | moves hm =>
      obtain rfl := Option.some.inj hd'
      obtain ⟨hnil, hops⟩ := hm.ops
      refine hinv.idle hnil ?_ id id
      obtain h | h | h := hops <;> rw [h]
      · exact List.not_mem_nil
      · decide
      · cases d.upcallOn <;> decide
  | exits => cases hd'
  | answer hpc hrx hdrain =>
      obtain ⟨os₁, kern, pol, ls, hr, ha, rfl, rfl⟩ := drainAnswer_cases hdrain
      obtain rfl := Option.some.inj hd'
      have hops : d.pc.ops = [] := by rw [hpc, Pc.ops]
      have hother := hanswer _ _ _ hpc hrx
      simp only [ha] at hother
      refine hinv.idle hops (hops ▸ List.not_mem_nil) hhas fun hne => ?_
      rw [policyMtime_congr (Os.appendPolicy_policy (Os.sameRest_of_resolveAll hr).policy)]
      obtain hsame | hother := hother
      · rw [policyMtime_congr hsame]
        exact hne
      · exact hother.symm
  | upcall hpc hurx hdrain =>
      have hops : d.pc.ops = [] := by rw [hpc, Pc.ops]
      cases drainUpcall_cases hdrain with
      | resolved hv hr =>
          obtain rfl := Option.some.inj hd'
          refine hinv.idle hops (hops ▸ List.not_mem_nil) id fun hne => ?_
          rwa [policyMtime_congr (Os.sameRest_of_resolveAll hr).policy]
      | asked hpath hv hraise =>
          obtain ⟨⟨_, _, rfl⟩, -⟩ := raise_cases hraise
          obtain rfl := Option.some.inj hd'
          exact hinv.idle hops (hops ▸ List.not_mem_nil) id id
  | @effect op rest extra next os' od hpc hrun =>
      obtain ⟨d₁, rfl, rfl⟩ := Option.map_eq_some_iff.mp hd'
      exact hinv.effect hpc hrun hhas (hfile.loaded hrun)
  | @packet pkt src r hpc hpkt hr =>
      obtain rfl := Option.some.inj hd'
      have hops : d.pc.ops = [] := by rw [hpc, Pc.ops]
      have hcase := hr ▸ handlePacket_cases inp w.os d pkt src
      obtain ⟨hos, -, hnext⟩ | ⟨f, kern, pol, ls, -, -, -, rfl⟩ := hcase.policy
      · refine hinv.idle hops (by simp [hnext, Pc.ops]) hhas fun hne => ?_
        rw [policyMtime_congr hos]
        exact hcase.keeps.2.2.trans_ne hne
      · have hsame := hlearn pkt src hpc hpkt (congrArg Handled.next hr)
        exact .inr (.inl (hhas (((heeded_of_idle hops).mp hinv).resolve_right (not_not.mpr hsame))))

theorem FileHas.step (h : FileHas w.os.policyData e) (hstep : w.step ev = some (w', o))
    (hedit : Unedited ev) : FileHas w'.os.policyData e := by
  obtain ⟨inp, d, rfl, hd, hmain⟩ | hout := step_cases hstep
  · exact (hmain.fileHas h).1
  · obtain hsame | ⟨file, rfl, -⟩ := hout.policy
    · rwa [policyData_congr hsame]
    · exact absurd rfl (hedit file)

theorem heeded_step (hfile : FileHas w.os.policyData e) (hstep : w.step ev = some (w', o))
    (hok : Timely w ev) (hinv : ∀ d, w.daemon = some d → Heeded e w.os d) :
    ∀ d, w'.daemon = some d → Heeded e w'.os d := by
  intro d' hd'
  obtain ⟨inp, d, rfl, hd, hmain⟩ | hout := step_cases hstep
  · exact hmain.heeded hd hd' hok hfile (hinv d hd)
  · obtain hnone | ⟨fallback, -, hnew⟩ | ⟨d, d₁, hd, hd₁, _, _, _, _, _, rfl⟩ := hout.daemon
    · rw [hnone] at hd'
      cases hd'
    · obtain rfl := Option.some.inj (hnew.symm.trans hd')
      exact .inl (.inl (by decide : Op.loadPolicy ∈ startOps))
    · obtain rfl := Option.some.inj (hd₁.symm.trans hd')
      have hpolicy : w'.os.policy = w.os.policy :=
        hout.policy.resolve_right fun ⟨file, hev, _⟩ => hok.1 file hev
      have h := hinv d hd
      rwa [Heeded, ← policyMtime_congr hpolicy] at h

/-- The entry is in the file, and in the policy of a daemon that has loaded one. -/
structure InForce (e : Entry) (w : World) : Prop where
  file : FileHas w.os.policyData e
  pol : ∀ d, w.daemon = some d → .loadPolicy ∈ d.pc.ops ∨ d.pol.Has e

theorem InForce.step (h : InForce e w) (hstep : w.step ev = some (w', o)) (hedit : Unedited ev) :
    InForce e w' := by
  refine ⟨h.file.step hstep hedit, fun d' hd' => ?_⟩
  obtain ⟨inp, d, rfl, hd, hmain⟩ | hout := step_cases hstep
  · obtain hload | hpol := h.pol d hd
    · obtain hhead | hload := hmain.pending hd' hload
      · -- the file is loaded now
        obtain ⟨rest, extra, next, os', od, -, hrun, rfl⟩ := hmain.effect_of_head hhead
        simp only [Op.run, Prod.mk.injEq] at hrun
        obtain ⟨-, rfl, -⟩ := hrun
        obtain rfl := Option.some.inj hd'
        exact .inr h.file.has
      · exact .inl hload
    · exact .inr ((hmain.fileHas h.file).2 d' hd' hpol)
  · obtain hnone | ⟨fallback, -, hnew⟩ | ⟨d, d₁, hd, hd₁, _, _, _, _, _, rfl⟩ := hout.daemon
    · rw [hnone] at hd'
      cases hd'
    · obtain rfl := Option.some.inj (hnew.symm.trans hd')
      exact .inl (by decide : Op.loadPolicy ∈ startOps)
    · obtain rfl := Option.some.inj (hd₁.symm.trans hd')
      exact h.pol d hd

/-- Within a tick: what is in the file is heeded, and the comparison or the reload is still to
come, or the entry is in force. -/
structure Coming (e : Entry) (w : World) : Prop where
  file : FileHas w.os.policyData e
  heeded : ∀ d, w.daemon = some d → Heeded e w.os d
  pol : ∀ d, w.daemon = some d → (.checkMtime ∈ d.pc.ops ∨ .reload ∈ d.pc.ops) ∨ d.pol.Has e

/-- A step within a tick either compares, or reloads, or leaves both to come. -/
theorem Coming.step (h : Coming e w) (hstep : w.step ev = some (w', o)) (hok : Timely w ev)
    (htick : InTick w) (hshape : Shaped w) : Coming e w' := by
  have hheeded := heeded_step h.file hstep hok h.heeded
  refine ⟨h.file.step hstep hok.1, hheeded, fun d' hd' => ?_⟩
  obtain ⟨d, reloaded, ops, hd, hpc⟩ := htick
  obtain ⟨inp, d₀, rfl, hd₀, hmain⟩ | hout := step_cases hstep
  · obtain rfl := Option.some.inj (hd.symm.trans hd₀)
    obtain (hcheck | hreload) | hpol := h.pol d hd
    · obtain hhead | hlater := hmain.pending hd' hcheck
      · obtain ⟨rest, extra, next, os', od, heff, hrun, rfl⟩ := hmain.effect_of_head hhead
        obtain ⟨d₁, rfl, rfl⟩ := Option.map_eq_some_iff.mp hd'
        -- now the watermark is the file's time
        have hmtime : d₁.polMtime = os'.policyMtime := by
          simp only [Op.run] at hrun
          split at hrun <;> simp only [Prod.mk.injEq, Option.some.injEq] at hrun <;>
            obtain ⟨rfl, rfl, -⟩ := hrun
          · rfl
          · rename_i hsame
            exact (not_not.mp hsame).symm
        have hload : .loadPolicy ∉ (next (extra ++ rest)).ops := by
          rw [heff.mem_iff (by decide) (Op.loadPolicy_not_mem_extra (Op.extra_mem_extras hrun))]
          exact ((watch_shape _ (d.pc.shapes_subset (hshape d hd)) _ hhead).2 rfl).1
        obtain (hdue | hdue) | hpol | ⟨-, hne⟩ := hheeded _ hd'
        · exact absurd hdue hload
        · exact .inl (.inr hdue)
        · exact .inr hpol
        · exact absurd hmtime hne
      · exact .inl (.inl hlater)
    · obtain hhead | hlater := hmain.pending hd' hreload
      · obtain ⟨rest, extra, next, os', od, heff, hrun, rfl⟩ := hmain.effect_of_head hhead
        obtain ⟨d₁, rfl, rfl⟩ := Option.map_eq_some_iff.mp hd'
        have hpol₁ : d₁.pol.Has e := h.file.loaded hrun (.inr rfl)
        exact .inr hpol₁
      · exact .inl (.inr hlater)
    · exact .inr ((hmain.fileHas h.file).2 d' hd' hpol)
  · obtain hnone | ⟨_, hnone, -⟩ | ⟨d₁, d₂, hd₁, hd₂, _, _, _, _, _, rfl⟩ := hout.daemon
    · rw [hnone] at hd'
      cases hd'
    · rw [hnone] at hd
      cases hd
    · obtain rfl := Option.some.inj (hd₂.symm.trans hd')
      exact h.pol d₁ hd₁

variable {verb : Effect} {args : List Str} {kind value : Str} {sc : Scope}

end Pfsnitch
