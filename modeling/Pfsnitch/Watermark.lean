import Pfsnitch.Daemon.Shape
import Pfsnitch.Policy.Reload

/-!
# Pfsnitch.Watermark

The watermark, and the edits it stands for.

The daemon keeps the modification time of the policy file that it has loaded, and
loads the file again when a tick finds another time.  It moves the watermark
without loading the file in two places: after start-up's load, and after it has
learned a flow itself.  In a run in which nothing else has changed the file at
these moments (`Noticed`), whenever the watermark is the file's time the policy
in memory is the file's, and so is that of every tick (`edits_noticed`); an edit
right before a learned flow is enough to break it (`edit_missed`).
-/

namespace Pfsnitch

open Lib

variable [Casing]

variable {w w' : World} {d d' : Daemon} {ev : Event} {o : List Output} {inp : Input} {os os' : Os}

/-- The policy and the mode in memory are the file's. -/
structure Loaded (os : Os) (d : Daemon) : Prop where
  pol : d.pol = Policy.loadFile os.policyData
  mode : d.mode = (Policy.loadFile os.policyData).modeOr d.fallback

/-- The file is the one that is in memory, and takes what is recorded next. -/
structure Recordable (os : Os) (d : Daemon) (i : Entered) : Prop where
  seen : d.polMtime = os.policyMtime
  terminated : EndsInNewline os.policyData
  carried : Ledger.Writes ⟨d.pol, os.policyData⟩ i

/-- An answer writes nothing, or gives the file another time than the watermark, or
writes what the file can carry into the file that is in memory. -/
def AnswerNoticed (inp : Input) (os : Os) (d : Daemon) (ans : Answer) (p : Pending) : Prop :=
  let sha := p.exe.bind os.env.hash
  let ls := (d.pol.answered ans p.exe p.dst p.host p.dport sha).2
  ls = [] ∨ (os.appendPolicy inp ls).policyMtime ≠ d.polMtime ∨
    Recordable os d (.answered ans p.exe p.dst p.host p.dport sha inp.appendOk)

/-- An edit does not come between start-up's load, or the append of a learned flow, and
the watermark that is taken after it, and gives another time than the watermark; answers
are noticed; and a flow is learned when the file is the one in memory, and can carry the
rule. -/
def Noticed (w : World) : Event → Prop
  | .editPolicy file => ∀ d, w.daemon = some d →
      if .readMtime ∈ d.pc.ops then .loadPolicy ∈ d.pc.ops
      else file.map (·.mtime) ≠ d.polMtime
  | .daemon inp => ∀ d, w.daemon = some d →
      (∀ ans p rx, d.pc = .answers → d.rx = (ans, p) :: rx → AnswerNoticed inp w.os d ans p) ∧
      ∀ pkt src f, d.pc = .recv → inp.packet = some (pkt, src) → parse pkt = some f →
        d.mode = .visibility → (handlePacket inp w.os d pkt src).used = some .ask →
        Recordable w.os d (.learned (flowExe w.os.env f.key) f.dst (d.names.nameFor f.dst) f.dport
          inp.appendOk)
  | _ => True

/-- Once the file is loaded: until the watermark is taken the policy is the file's, and
from then on it is so whenever the watermark is the file's time and no reload is due. -/
structure Watched (os : Os) (d : Daemon) : Prop where
  starting : .loadPolicy ∉ d.pc.ops → .readMtime ∈ d.pc.ops → Loaded os d
  running : .loadPolicy ∉ d.pc.ops → .readMtime ∉ d.pc.ops → .reload ∉ d.pc.ops →
    d.polMtime = os.policyMtime → Loaded os d

/-! ## what is recorded -/

section Record

variable {p : Policy} {ans : Answer} {exe : Option Str} {dst : IpAddr} {host : Option Str}
  {dport : UInt16} {origin : Origin} {sha : Option Digest}

/-- Recording leaves the mode alone. -/
theorem record_mode : (p.record ans exe dst host dport origin).1.mode = p.mode := by
  rw [record_eq]
  cases answerEntry ans exe dst host dport with
  | none => rfl
  | some e => exact Policy.mode_insert p e

theorem answered_mode : (p.answered ans exe dst host dport sha).1.mode = p.mode := by
  obtain ⟨pins, hpins⟩ := repin_frame p ans exe sha
  calc (p.answered ans exe dst host dport sha).1.mode
    _ = (p.repin ans exe sha).1.mode := record_mode
    _ = p.mode := by rw [hpins]

theorem learned_mode : (p.learned exe dst host dport).1.mode = p.mode := record_mode

end Record

omit [Casing] in
theorem Os.appendPolicy_data (os : Os) (inp : Input) (ls : List Str) :
    (os.appendPolicy inp ls).policyData = appendLines inp.appendOk os.policyData ls := by
  unfold Os.appendPolicy
  split
  · simp [Os.policyData, Option.map_map, Function.comp_def]
  · rename_i hnone
    have hkeep : ∀ t : Option (List UInt8), appendLines inp.appendOk t ls = t := by
      intro t
      induction ls generalizing t with
      | nil => rfl
      | cons l ls ih =>
          rw [List.any_cons, Bool.or_eq_true, not_or] at hnone
          rw [appendLines, List.foldl_cons, if_neg hnone.1]
          exact ih hnone.2 t
    rw [hkeep]

omit [Casing] in
theorem Os.appendPolicy_policy (h : os'.policy = os.policy) {ls : List Str} :
    (os'.appendPolicy inp ls).policy = (os.appendPolicy inp ls).policy := by
  unfold Os.appendPolicy Os.policyData
  rw [h]
  split
  · rfl
  · exact h

/-- What is recorded into the file that is in memory keeps the two together. -/
theorem Loaded.recorded {i : Entered} {pol : Policy} {ls : List Str} (h : Loaded os d)
    (hrec : Recordable os d i)
    (hstep : Ledger.step ⟨d.pol, os.policyData⟩ i =
      some (⟨pol, appendLines inp.appendOk os.policyData ls⟩, ls))
    (hmode : pol.mode = d.pol.mode) (hos : os'.policyData = appendLines inp.appendOk os.policyData ls)
    (hpol : d'.pol = pol) (hmode' : d'.mode = d.mode) (hfallback : d'.fallback = d.fallback) :
    Loaded os' d' := by
  have hagrees : Ledger.Agrees ⟨d.pol, os.policyData⟩ := ⟨hrec.terminated, h.pol.symm⟩
  have hload := (hagrees.step hrec.carried hstep).load
  rw [← hos] at hload
  refine ⟨hpol.trans hload.symm, ?_⟩
  rw [hmode', h.mode, hfallback, hload, Policy.modeOr, Policy.modeOr, hmode, h.pol]

/-! ## one step -/

omit [Casing] in
/-- An event around the main thread changes the policy file only as an edit. -/
theorem Outside.policy (h : Outside w ev w' o) :
    w'.os.policy = w.os.policy ∨ ∃ file, ev = .editPolicy file ∧ w'.os.policy = file := by
  cases h with
  | editPolicy => exact .inr ⟨_, rfl, rfl⟩
  | crash => exact .inl (closeAll_frame _ _).policy
  | readerEnd => exact .inl (Os.sameRest_closed _ _).policy
  | _ => exact .inl rfl

omit [Casing] in
theorem policyData_congr (h : os'.policy = os.policy) : os'.policyData = os.policyData := by
  rw [Os.policyData, h, Os.policyData]

omit [Casing] in
theorem policyMtime_congr (h : os'.policy = os.policy) : os'.policyMtime = os.policyMtime := by
  rw [Os.policyMtime, h, Os.policyMtime]

/-- No effect touches the file, not even one that ends the daemon. -/
theorem Op.run_policy {op : Op} {od : Option Daemon} {extra : List Op}
    (h : op.run inp os d = (os', od, extra)) : os'.policy = os.policy := by
  cases od with
  | some d' =>
      obtain ⟨_, _, rfl⟩ := Op.run_os h
      rfl
  | none =>
      cases op with
      | bind =>
          simp only [Op.run] at h
          split at h
          · simp at h
          · obtain ⟨rfl, -⟩ := Prod.mk.inj h
            exact (closeAll_frame os d).policy
      | checkMtime | reconcile | openReader =>
          simp only [Op.run] at h
          repeat' split at h
          all_goals simp at h
      | _ => simp [Op.run] at h

theorem Loaded.congr (h : Loaded os d) (hos : os'.policy = os.policy) (hpol : d'.pol = d.pol)
    (hmode : d'.mode = d.mode) (hfallback : d'.fallback = d.fallback) : Loaded os' d' := by
  have htext : os'.policyData = os.policyData := by rw [Os.policyData, hos, Os.policyData]
  exact ⟨by rw [hpol, htext, h.pol], by rw [hmode, htext, hfallback, h.mode]⟩

/-- Nothing that is watched changes, and no effect is taken. -/
theorem Watched.congr (h : Watched os d) (hos : os'.policy = os.policy) (hpol : d'.pol = d.pol)
    (hmode : d'.mode = d.mode) (hfallback : d'.fallback = d.fallback)
    (hmtime : d'.polMtime = d.polMtime)
    (hload : .loadPolicy ∉ d'.pc.ops → .loadPolicy ∉ d.pc.ops)
    (hread : .readMtime ∈ d'.pc.ops ↔ .readMtime ∈ d.pc.ops)
    (hreload : .reload ∉ d'.pc.ops → .reload ∉ d.pc.ops) : Watched os' d' where
  starting h₁ h₂ := (h.starting (hload h₁) (hread.mp h₂)).congr hos hpol hmode hfallback
  running h₁ h₂ h₃ heq := by
    refine (h.running (hload h₁) (fun hr => h₂ (hread.mpr hr)) (hreload h₃) ?_).congr hos hpol hmode
      hfallback
    rw [← hmtime, heq, Os.policyMtime, hos, Os.policyMtime]

/-- When the watermark is the file's time and no reload is due, the file is in memory. -/
theorem Watched.loaded (h : Watched os d) (hload : .loadPolicy ∉ d.pc.ops)
    (hreload : .reload ∉ d.pc.ops) (hmtime : d.polMtime = os.policyMtime) : Loaded os d := by
  by_cases hread : .readMtime ∈ d.pc.ops
  · exact h.starting hload hread
  · exact h.running hload hread hreload hmtime

/-- What is loaded now is watched. -/
theorem Loaded.watched (h : Loaded os d) : Watched os d :=
  ⟨fun _ _ => h, fun _ _ _ _ => h⟩

omit [Casing] in
/-- What is to come in the shapes that matter here. -/
theorem watch_shape : ∀ ops ∈ allShapes, ∀ op ∈ ops.head?,
    (op = .readMtime → .loadPolicy ∉ ops) ∧
    (op = .checkMtime → .loadPolicy ∉ ops ∧ .readMtime ∉ ops ∧ .reload ∉ ops) := by
  decide

omit [Casing] in
theorem Op.readMtime_not_mem_extra {op : Op} {extra : List Op} (h : extra ∈ op.extras) :
    .readMtime ∉ extra := by
  revert extra
  cases op <;> decide +revert

/-- What loads the file leaves it in memory. -/
theorem Op.run_loads {op : Op} {extra : List Op} (h : op.run inp os d = (os', some d', extra))
    (hop : op = .loadPolicy ∨ op = .reload) : Loaded os' d' := by
  obtain rfl | rfl := hop
  · simp only [Op.run, Prod.mk.injEq, Option.some.injEq] at h
    obtain ⟨rfl, rfl, -⟩ := h
    exact ⟨rfl, rfl⟩
  · simp only [Op.run, reloadPolicy, Prod.mk.injEq, Option.some.injEq] at h
    obtain ⟨rfl, rfl, -⟩ := h
    exact ⟨rfl, rfl⟩

/-- An answer that the watermark allows for leaves the file watched. -/
theorem Watched.answered {ans : Answer} {p : Pending} {rx : List (Answer × Pending)}
    (hinv : Watched os d) (hpc : d.pc = .answers) (hnotice : AnswerNoticed inp os d ans p)
    (hdrain : drainAnswer inp os { d with rx } ans p = (os', d')) : Watched os' d' := by
  obtain ⟨os₁, kern, pol, ls, hr, ha, rfl, rfl⟩ := drainAnswer_cases hdrain
  have hfile : os₁.policy = os.policy := (Os.sameRest_of_resolveAll hr).policy
  have hops : d.pc.ops = [] := by rw [hpc, Pc.ops]
  have hnone : ∀ op, op ∉ d.pc.ops := fun op => hops ▸ List.not_mem_nil
  simp only [AnswerNoticed, ha] at hnotice
  obtain rfl | hmtime | hrec := hnotice
  · -- nothing is written
    have hpol : pol = d.pol := by
      have hsame := answered_of_nil (congrArg Prod.snd ha)
      rwa [ha] at hsame
    exact hinv.congr hfile hpol rfl rfl rfl id .rfl id
  · -- the file has another time
    refine ⟨fun _ hread => absurd hread (hnone _), fun _ _ _ heq => absurd ?_ hmtime⟩
    rw [Os.policyMtime, ← Os.appendPolicy_policy hfile]
    exact heq.symm
  · have hloaded := hinv.running (hnone _) (hnone _) (hnone _) hrec.seen
    have hmode : (d.pol.answered ans p.exe p.dst p.host p.dport
        (p.exe.bind os.env.hash)).1.mode = d.pol.mode := answered_mode
    rw [ha] at hmode
    have hstep : Ledger.step ⟨d.pol, os.policyData⟩ (.answered ans p.exe p.dst p.host p.dport
        (p.exe.bind os.env.hash) inp.appendOk) =
          some (⟨pol, appendLines inp.appendOk os.policyData ls⟩, ls) := by
      rw [Ledger.step, ha]
    refine Loaded.watched (hloaded.recorded hrec hstep hmode ?_ rfl rfl rfl)
    rw [Os.appendPolicy_data, Os.policyData, hfile, Os.policyData]

/-- The check of the watermark either finds the file as it was loaded or calls for a reload. -/
theorem Watched.checked {rest extra : List Op} {next : List Op → Pc} {d₁ : Daemon}
    (hinv : Watched os d) (hpc : d.pc.Effect .checkMtime rest next)
    (hrun : Op.checkMtime.run inp os d = (os', some d₁, extra))
    (hno : .loadPolicy ∉ d.pc.ops ∧ .readMtime ∉ d.pc.ops ∧ .reload ∉ d.pc.ops)
    (hkeep : Loaded os d → Watched os' { d₁ with pc := next (extra ++ rest) }) :
    Watched os' { d₁ with pc := next (extra ++ rest) } := by
  obtain ⟨hops, hnext⟩ := hpc.ops
  obtain ⟨hload, hread, hreload⟩ := hno
  simp only [Op.run] at hrun
  split at hrun
  · -- a reload is due
    simp only [Prod.mk.injEq] at hrun
    obtain ⟨-, -, rfl⟩ := hrun
    constructor
    · intro _ hmem
      rw [hnext, List.mem_append] at hmem
      obtain hmem | hmem := hmem
      · cases List.mem_singleton.mp hmem
      · exact absurd (by rw [hops]; exact List.mem_cons_of_mem _ hmem) hread
    · intro _ _ hmem
      rw [hnext] at hmem
      exact absurd (List.mem_append_left _ (List.mem_singleton_self _)) hmem
  · rename_i hsame
    exact hkeep (hinv.running hload hread hreload (not_not.mp hsame).symm)

/-- Every effect leaves the file watched. -/
theorem Watched.effect {op : Op} {rest extra : List Op} {next : List Op → Pc} {d₁ : Daemon}
    (hinv : Watched os d) (hshape : d.pc.ops ∈ allShapes) (hpc : d.pc.Effect op rest next)
    (hrun : op.run inp os d = (os', some d₁, extra)) :
    Watched os' { d₁ with pc := next (extra ++ rest) } := by
  obtain ⟨hops, hnext⟩ := hpc.ops
  have hfile : os'.policy = os.policy := by
    obtain ⟨_, _, rfl⟩ := Op.run_os hrun
    rfl
  have hkeeps := Op.run_keeps hrun
  obtain ⟨hfallback, hmtime⟩ := Op.run_polMtime hrun
  obtain ⟨hshapeRead, hshapeCheck⟩ := watch_shape _ hshape op (by rw [hops]; rfl)
  have hkeep : Loaded os' d₁ → Watched os' { d₁ with pc := next (extra ++ rest) } := by
    intro h
    apply Loaded.watched
    exact h.congr rfl rfl rfl rfl
  by_cases hload : op = .loadPolicy ∨ op = .reload
  · exact hkeep (Op.run_loads hrun hload)
  obtain ⟨hload, hreload⟩ := not_or.mp hload
  obtain ⟨hpol, hmode⟩ := hkeeps.pol hload hreload
  by_cases hread : op = .readMtime
  · -- the file has not changed since it was loaded
    subst hread
    have hloaded := hinv.starting (hshapeRead rfl) (by rw [hops]; exact List.mem_cons_self)
    exact hkeep (hloaded.congr hfile hpol hmode hfallback)
  by_cases hcheck : op = .checkMtime
  · subst hcheck
    exact hinv.checked hpc hrun (hshapeCheck rfl)
      fun h => hkeep (h.congr hfile hpol hmode hfallback)
  have hextra : .readMtime ∉ extra := Op.readMtime_not_mem_extra (Op.extra_mem_extras hrun)
  exact hinv.congr hfile hpol hmode hfallback (hmtime hread hcheck) (mt (hpc.mem_next hload))
    (hpc.mem_iff hread hextra) (mt (hpc.mem_next hreload))

/-- A packet that the watermark allows for leaves the file watched. -/
theorem Watched.handled {pkt : Packet} {src : Sockaddr} {r : Handled} (hinv : Watched os d)
    (hpc : d.pc = .recv) (hr : handlePacket inp os d pkt src = r)
    (hlearn : ∀ f, parse pkt = some f → d.mode = .visibility →
      r.used = some .ask → Recordable os d (.learned (flowExe os.env f.key) f.dst
        (d.names.nameFor f.dst) f.dport inp.appendOk)) :
    Watched r.os { r.daemon with pc := r.next } := by
  have hops : d.pc.ops = [] := by rw [hpc, Pc.ops]
  have hnone : ∀ op, op ∉ d.pc.ops := fun op => hops ▸ List.not_mem_nil
  have hcase := hr ▸ handlePacket_cases inp os d _ _
  obtain ⟨hfile, hpol, hnext⟩ | ⟨f, kern, pol, ls, hparse, hmode, hl, rfl⟩ := hcase.policy
  · obtain ⟨hmode, hfallback, hmtime⟩ := hcase.keeps
    refine hinv.congr hfile hpol hmode hfallback hmtime (fun _ => hnone _)
      (iff_of_false ?_ (hnone _)) fun _ => hnone _
    simp only [hnext]
    exact List.not_mem_nil
  · have hrec := hlearn f hparse hmode rfl
    have hloaded := hinv.running (hnone _) (hnone _) (hnone _) hrec.seen
    have hmode : (d.pol.learned (flowExe os.env f.key) f.dst (d.names.nameFor f.dst)
        f.dport).1.mode = d.pol.mode := learned_mode
    rw [hl] at hmode
    have hstep : Ledger.step ⟨d.pol, os.policyData⟩ (.learned (flowExe os.env f.key)
        f.dst (d.names.nameFor f.dst) f.dport inp.appendOk) =
          some (⟨pol, appendLines inp.appendOk os.policyData ls⟩, ls) := by
      rw [Ledger.step, hl]
    exact Loaded.watched (hloaded.recorded hrec hstep hmode (Os.appendPolicy_data _ _ _) rfl rfl
      rfl)

theorem MainStep.watched (hstep : MainStep inp w.os d w' o) (hd : w.daemon = some d)
    (hd' : w'.daemon = some d') (hok : Noticed w (.daemon inp)) (hshape : d.pc.ops ∈ allShapes)
    (hinv : Watched w.os d) : Watched w'.os d' := by
  obtain ⟨hanswer, hlearn⟩ := hok d hd
  cases hstep with
  | moves hm =>
      obtain rfl := Option.some.inj hd'
      obtain ⟨hnil, hops⟩ := hm.ops
      have hnone : ∀ op ∈ [Op.loadPolicy, .readMtime, .reload], op ∉ d.pc.ops := by simp [hnil]
      refine hinv.congr rfl rfl rfl rfl rfl (fun _ => hnone _ (by simp)) ?_
        fun _ => hnone _ (by simp)
      refine iff_of_false ?_ (hnone _ (by simp))
      obtain h | h | h := hops <;> rw [h]
      · exact List.not_mem_nil
      · decide
      · cases d.upcallOn <;> decide
  | exits => cases hd'
  | answer hpc hrx hdrain =>
      obtain rfl := Option.some.inj hd'
      exact hinv.answered hpc (hanswer _ _ _ hpc hrx) hdrain
  | upcall hpc hurx hdrain =>
      obtain rfl := Option.some.inj hd'
      cases drainUpcall_cases hdrain with
      | resolved hv hr =>
          exact hinv.congr (Os.sameRest_of_resolveAll hr).policy rfl rfl rfl rfl id .rfl id
      | asked hpath hv hraise =>
          obtain ⟨⟨_, _, rfl⟩, -⟩ := raise_cases hraise
          exact hinv.congr rfl rfl rfl rfl rfl id .rfl id
  | effect hpc hrun =>
      obtain ⟨d₁, rfl, rfl⟩ := Option.map_eq_some_iff.mp hd'
      exact hinv.effect hshape hpc hrun
  | packet hpc hpkt hr =>
      obtain rfl := Option.some.inj hd'
      exact hinv.handled hpc hr fun f hparse hmode hused =>
        hlearn _ _ f hpc hpkt hparse hmode (hr ▸ hused)

theorem Outside.watched (hout : Outside w ev w' o) (hok : Noticed w ev)
    (hinv : ∀ d, w.daemon = some d → Watched w.os d) (hd' : w'.daemon = some d') :
    Watched w'.os d' := by
  obtain hnone | ⟨fallback, -, hnew⟩ | ⟨d, d₁, hd, hd₁, _, _, _, _, _, rfl⟩ := hout.daemon
  · rw [hnone] at hd'
    cases hd'
  · -- the file is not loaded yet
    obtain rfl := Option.some.inj (hnew.symm.trans hd')
    have hload : .loadPolicy ∈ startOps := by decide
    exact ⟨fun h => absurd hload h, fun h => absurd hload h⟩
  · obtain rfl := Option.some.inj (hd₁.symm.trans hd')
    obtain hsame | ⟨file, rfl, hfile⟩ := hout.policy
    · exact (hinv d hd).congr hsame rfl rfl rfl rfl id .rfl id
    · have hedit : if .readMtime ∈ d.pc.ops then .loadPolicy ∈ d.pc.ops
          else file.map (·.mtime) ≠ d.polMtime := hok d hd
      split at hedit
      · rename_i hread
        exact ⟨fun h => absurd hedit h, fun _ h => absurd hread h⟩
      · rename_i hread
        refine ⟨fun _ h => absurd h hread, fun _ _ _ heq => absurd ?_ hedit⟩
        rw [← hfile]
        exact heq.symm

theorem step_watched (hstep : w.step ev = some (w', o)) (hok : Noticed w ev) (hshape : Shaped w)
    (hinv : ∀ d, w.daemon = some d → Watched w.os d) :
    ∀ d, w'.daemon = some d → Watched w'.os d := by
  intro d' hd'
  obtain ⟨inp, d, rfl, hd, hmain⟩ | hout := step_cases hstep
  · exact hmain.watched hd hd' hok (d.pc.shapes_subset (hshape d hd)) (hinv d hd)
  · exact hout.watched hok hinv hd'

theorem reachable_watched (hw : Reachable Noticed w) (hd : w.daemon = some d) :
    Watched w.os d := by
  obtain ⟨w₀, hinit, hrun⟩ := hw
  refine (hrun.invariant (P := fun w => Shaped w ∧ ∀ d, w.daemon = some d → Watched w.os d)
    ⟨hinit.no_daemon, hinit.no_daemon⟩ ?_).2 d hd
  rintro w ev w' o ⟨hshape, hinv⟩ hok hstep
  exact ⟨step_shaped hstep hshape, step_watched hstep hok hshape hinv⟩

/-! ## a tick -/

/-- The main thread is in a tick. -/
def InTick (w : World) : Prop := ∃ d reloaded ops, w.daemon = some d ∧ d.pc = .ticking reloaded ops

/-- On the way from `w` to `w'` the policy and the mode that `d` has were the file's. -/
def LoadedOnTheWay (ok : World → Event → Prop) (w w' : World) (d : Daemon) : Prop :=
  ∃ w₁ d₁, Run World.step ok w w₁ ∧ Run World.step ok w₁ w' ∧ w₁.daemon = some d₁ ∧
    Loaded w₁.os d₁ ∧ d.pol = d₁.pol ∧ d.mode = d₁.mode

theorem LoadedOnTheWay.step {ok : World → Event → Prop} {w₀ : World} (h : LoadedOnTheWay ok w₀ w d)
    (hok : ok w ev) (hstep : w.step ev = some (w', o)) (hpol : d'.pol = d.pol)
    (hmode : d'.mode = d.mode) : LoadedOnTheWay ok w₀ w' d' := by
  obtain ⟨w₁, d₁, hrun, hrest, hd₁, hloaded, hpol₁, hmode₁⟩ := h
  exact ⟨w₁, d₁, hrun, .tail hrest hok hstep, hd₁, hloaded, hpol.trans hpol₁, hmode.trans hmode₁⟩

/-- Within a tick, the comparison or the reload is still to come, or the policy has
been the file's. -/
theorem MainStep.tick {ok : World → Event → Prop} {w₀ : World} (hmain : MainStep inp w.os d w' o)
    (hd' : w'.daemon = some d') (hwatched : Watched w.os d) (hshape : d.pc.ops ∈ d.pc.shapes)
    {reloaded : Bool} {ops : List Op} (hpc : d.pc = .ticking reloaded ops)
    (hrun : Run World.step ok w₀ w') (hok : ok w (.daemon inp))
    (hstep : w.step (.daemon inp) = some (w', o))
    (hinv : (.checkMtime ∈ d.pc.ops ∨ .reload ∈ d.pc.ops) ∨ LoadedOnTheWay ok w₀ w d) :
    (.checkMtime ∈ d'.pc.ops ∨ .reload ∈ d'.pc.ops) ∨ LoadedOnTheWay ok w₀ w' d' := by
  obtain ⟨-, hdrain⟩ | ⟨_, hm⟩ | ⟨hrecv, -⟩ | ⟨op, rest, extra, next, d₁, heff, hop, rfl⟩ :=
    hmain.next hd'
  · simp [hpc] at hdrain
  · -- the tick is over
    have hnil := hm.ops.1
    have hway := hinv.resolve_left (by simp [hnil])
    cases hmain with
    | moves =>
        obtain rfl := Option.some.inj hd'
        exact .inr (hway.step hok hstep rfl rfl)
    | exits => cases hd'
    | answer hpc' | upcall hpc' | packet hpc' =>
        rw [hpc'] at hpc
        cases hpc
    | effect heff =>
        rw [heff.ops.1] at hnil
        cases hnil
  · rw [hrecv] at hpc
    cases hpc
  · obtain ⟨hops, hnext⟩ := heff.ops
    have hfile : w'.os.policy = w.os.policy := by
      obtain ⟨_, _, hos⟩ := Op.run_os hop
      rw [hos]
    have hkeeps := Op.run_keeps hop
    obtain ⟨hfallback, -⟩ := Op.run_polMtime hop
    have harrive : Loaded w'.os d₁ →
        LoadedOnTheWay ok w₀ w' { d₁ with pc := next (extra ++ rest) } := by
      intro h
      refine ⟨w', _, hrun, .refl, hd', ?_, rfl, rfl⟩
      exact h.congr rfl rfl rfl rfl
    have hload : op ≠ .loadPolicy := not_loadPolicy_of_ticking hpc hshape hops
    by_cases hreload : op = .reload
    · exact .inr (harrive (Op.run_loads hop (.inr hreload)))
    obtain ⟨hpol, hmode⟩ := hkeeps.pol hload hreload
    by_cases hcheck : op = .checkMtime
    · subst hcheck
      obtain ⟨-, hno⟩ := watch_shape _ (d.pc.shapes_subset hshape) .checkMtime (by rw [hops]; rfl)
      obtain ⟨hno₁, hno₂, hno₃⟩ := hno rfl
      simp only [Op.run] at hop
      split at hop
      · simp only [Prod.mk.injEq] at hop
        obtain ⟨-, -, rfl⟩ := hop
        left; right
        rw [hnext]
        exact List.mem_append_left _ (List.mem_singleton_self _)
      · rename_i hsame
        right
        apply harrive
        exact (hwatched.running hno₁ hno₂ hno₃ (not_not.mp hsame).symm).congr hfile hpol hmode hfallback
    · obtain hdue | hway := hinv
      · exact .inl (hdue.imp (heff.mem_next hcheck) (heff.mem_next hreload))
      · exact .inr (hway.step hok hstep hpol hmode)

/-- **No edit is missed.**  In a run that meets `Noticed`: once the daemon has started,
whenever no reload is due and its watermark is the file's time, the policy and the mode
in memory are the file's; and at the end of a tick they are what the file said at
some moment of the tick. -/
theorem edits_noticed (hw : Reachable Noticed w) (hd : w.daemon = some d) :
    (.loadPolicy ∉ d.pc.ops → .reload ∉ d.pc.ops → d.polMtime = w.os.policyMtime →
      Loaded w.os d) ∧
    (d.pc = .ticking false tickOps → ∀ w' d',
      Run World.step (fun w ev => Noticed w ev ∧ InTick w) w w' → w'.daemon = some d' →
      d'.pc = .recv → LoadedOnTheWay (fun w ev => Noticed w ev ∧ InTick w) w w' d') := by
  refine ⟨(reachable_watched hw hd).loaded, fun hpc w' d' hrun hd' hrecv => ?_⟩
  suffices h : ∀ d', w'.daemon = some d' → (.checkMtime ∈ d'.pc.ops ∨ .reload ∈ d'.pc.ops) ∨
      LoadedOnTheWay (fun w ev => Noticed w ev ∧ InTick w) w w' d' by
    exact (h d' hd').resolve_left (by simp [hrecv, Pc.ops])
  clear hrecv hd' d'
  induction hrun with
  | refl =>
      intro d' hd'
      obtain rfl := Option.some.inj (hd.symm.trans hd')
      left; left
      rw [hpc]
      decide
  | @tail t u ev o hrun hok hstep ih =>
      intro d' hd'
      have ht : Reachable Noticed t := by
        obtain ⟨w₀, hinit, hfirst⟩ := hw
        exact ⟨w₀, hinit, hfirst.trans (hrun.mono fun _ _ => And.left)⟩
      obtain ⟨d₁, reloaded, ops, hd₁, hticking⟩ := hok.2
      obtain ⟨inp, d₂, rfl, hd₂, hmain⟩ | hout := step_cases hstep
      · obtain rfl := Option.some.inj (hd₁.symm.trans hd₂)
        exact hmain.tick hd' (reachable_watched ht hd₁) (reachable_shaped ht d₁ hd₁) hticking
          (.tail hrun hok hstep) hok hstep (ih d₁ hd₁)
      · obtain hnone | ⟨_, hnone, -⟩ | ⟨d₂, d₃, hd₂, hd₃, _, _, _, _, _, rfl⟩ := hout.daemon
        · rw [hnone] at hd'
          cases hd'
        · rw [hnone] at hd₁
          cases hd₁
        · obtain rfl := Option.some.inj (hd₃.symm.trans hd')
          exact (ih d₂ hd₂).imp id fun hway => hway.step hok hstep rfl rfl

/-! ## edits that are noticed, and one that is not -/

omit [Casing] in
/-- Steps that are easily seen to be noticed. -/
def NoticedCalm (w : World) : Event → Bool
  | .editPolicy file => w.daemon.all fun d =>
      .readMtime ∉ d.pc.ops && file.map (·.mtime) != d.polMtime
  | .daemon inp => w.daemon.all fun d => (d.pc != .answers || d.rx.isEmpty) && inp.packet.isNone
  | _ => true

theorem noticed_of_calm (h : NoticedCalm w ev = true) : Noticed w ev := by
  cases ev with
  | editPolicy file =>
      intro d hd
      simp only [NoticedCalm, hd, Option.all_some, Bool.and_eq_true, decide_eq_true_eq, bne_iff_ne,
        ne_eq] at h
      rw [if_neg h.1]
      exact h.2
  | daemon inp =>
      intro d hd
      simp only [NoticedCalm, hd, Option.all_some, Bool.and_eq_true, Bool.or_eq_true, bne_iff_ne,
        ne_eq, List.isEmpty_iff, Option.isNone_iff_eq_none] at h
      obtain ⟨hanswers, hpacket⟩ := h
      constructor
      · intro ans p rx hpc hrx
        rw [hanswers.resolve_left (not_not.mpr hpc)] at hrx
        cases hrx
      · intro pkt src f hpc hpkt
        rw [hpacket] at hpkt
        cases hpkt
  | _ => trivial

omit [Casing] in
/-- Is the main thread in a tick? -/
def inTick (w : World) : Bool := w.daemon.any fun d =>
  match d.pc with
  | .ticking _ _ => true
  | _ => false

omit [Casing] in
theorem inTick_of (h : inTick w = true) : InTick w := by
  obtain ⟨d, hd, hpc⟩ := (Option.any_eq_true _ _).mp h
  split at hpc
  · rename_i hticking
    exact ⟨d, _, _, hd, hticking⟩
  · cases hpc

omit [Casing] in
/-- A machine whose policy is visibility, and the edit that adds a deny. -/
def denyEdit : Event := .editPolicy
  (some (.ofText "mode visibility\ndeny-dest 192.0.2.1\n".toList 2))

omit [Casing] in
/-- The deny that is added to the file is the policy after the next tick. -/
theorem edits_noticed_deny :
    letI := asciiCasing
    ∃ (w w' : World) (d d' : Daemon), w.daemon = some d ∧ d.pc = .ticking false tickOps ∧
      d.pol.denyDest = ∅ ∧ w'.daemon = some d' ∧ d'.pc = .recv ∧ Loaded w'.os d' ∧
      d'.pol.denyDest = {(.v4 ⟨192, 0, 2, 1⟩, none)} ∧
      LoadedOnTheWay (fun w ev => Noticed w ev ∧ InTick w) w w' d' := by
  let _ := asciiCasing
  obtain ⟨w, hw, hp⟩ := exists_reachable_of_exec (fun w ev => NoticedCalm w ev = true)
    (World.withPolicy "mode visibility\n") ⟨rfl, rfl⟩
    (startEvents .enforcement 9 ++ [denyEdit, .wait 1000] ++ List.replicate 5 (.daemon {}))
    (fun w => (w.daemon.any fun d => d.pc = .ticking false tickOps ∧ d.pol.denyDest = ∅) &&
      (exec World.step (fun w ev => NoticedCalm w ev = true ∧ inTick w = true) w
        (List.replicate 7 (.daemon {}))).any fun w' => w'.daemon.any fun d' => d'.pc = .recv ∧
          d'.polMtime = w'.os.policyMtime ∧
          d'.pol.denyDest = {(.v4 ⟨192, 0, 2, 1⟩, none)})
    (by decide +kernel)
  rw [Bool.and_eq_true] at hp
  obtain ⟨hp, htick⟩ := hp
  obtain ⟨d, hd, hp⟩ := (Option.any_eq_true _ _).mp hp
  rw [decide_eq_true_eq] at hp
  obtain ⟨w', hrun, hp'⟩ := exists_run_of_exec htick
  obtain ⟨d', hd', hp'⟩ := (Option.any_eq_true _ _).mp hp'
  rw [decide_eq_true_eq] at hp'
  obtain ⟨hrecv, hmtime, hdeny⟩ := hp'
  have hnoticed : Reachable Noticed w := hw.mono fun _ _ => noticed_of_calm
  have htick : Run World.step (fun w ev => Noticed w ev ∧ InTick w) w w' :=
    hrun.mono fun _ _ h => ⟨noticed_of_calm h.1.1, inTick_of h.1.2⟩
  have hnoticed' : Reachable Noticed w' := by
    obtain ⟨w₀, hinit, hfirst⟩ := hnoticed
    exact ⟨w₀, hinit, hfirst.trans (htick.mono fun _ _ => And.left)⟩
  have hloaded : Loaded w'.os d' := (edits_noticed hnoticed' hd').1 (by simp [hrecv, Pc.ops])
    (by simp [hrecv, Pc.ops]) hmtime
  exact ⟨w, w', d, d', hd, hp.1, hp.2, hd', hrecv, hloaded, hdeny,
    (edits_noticed hnoticed hd).2 hp.1 w' d' htick hd' hrecv⟩

/-- A step that changes the policy file gives it a later time. -/
def NewTime (w : World) (ev : Event) : Bool :=
  match w.step ev with
  | some (w', _) => w'.os.policy = w.os.policy ||
      w.os.policyMtime.all fun m => w'.os.policyMtime.any fun m' => m < m'
  | none => true

omit [Casing] in
/-- An outbound datagram to 198.51.100.1, port 443. -/
def learnedPacket : Packet :=
  [0x45, 0, 0, 28, 0, 0, 0, 0, 64, 17, 0, 0, 10, 0, 0, 1, 198, 51, 100, 1, 4, 0, 1, 187, 0, 8, 0, 0]

omit [Casing] in
/-- Between the edit and the tick the daemon learns a flow and moves its watermark past
both writes: after the tick it has still not seen the deny. -/
theorem edit_missed :
    letI := asciiCasing
    ¬ ∀ (w : World) (d : Daemon), Reachable (fun w ev => NewTime w ev = true) w →
      w.daemon = some d → d.pc = .recv → d.polMtime = w.os.policyMtime → Loaded w.os d := by
  let _ := asciiCasing
  intro h
  obtain ⟨w, hw, hp⟩ := exists_reachable_of_exec (fun w ev => NewTime w ev = true)
    (World.withPolicy "mode visibility\n") ⟨rfl, rfl⟩
    (startEvents .enforcement 9 ++
      [denyEdit, .daemon { mtime := 3, packet := some (learnedPacket, ⟨0, 0⟩) }, .wait 1000] ++
      List.replicate 10 (.daemon {}))
    (fun w => w.daemon.any fun d => d.pc = .recv ∧ d.polMtime = w.os.policyMtime ∧
      d.pol.denyDest ≠ (Policy.loadFile w.os.policyData).denyDest)
    (by decide +kernel)
  obtain ⟨d, hd, hp⟩ := (Option.any_eq_true _ _).mp hp
  rw [decide_eq_true_eq] at hp
  obtain ⟨hrecv, hmtime, hdeny⟩ := hp
  exact hdeny (congrArg Policy.denyDest (h w d hw hd hrecv hmtime).pol)

end Pfsnitch
