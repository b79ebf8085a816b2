import Pfsnitch.Daemon.Live

/-!
# Pfsnitch.Coverage

When UDP is governed: by the divert rule, or by the hook with the upcall on.

Turning the upcall on comes before retiring the divert rule, but turning it off
comes before reloading the rule, and the two also part when the module or the
daemon goes, or when a call fails.  So UDP stays governed in a run that, while
the rule is retired, does nothing that ends in turning the upcall off
(`udp_governed`); a switch of the backend is enough to leave a gap
(`udp_ungoverned_on_switch`).
-/

namespace Pfsnitch

open Lib

variable [Casing]

omit [Casing] in
/-- The upcall of the loaded module is on. -/
def Os.upcallOn (os : Os) : Bool := os.kmod.any (·.upcallOn)

omit [Casing] in
/-- The upcall is on, behind a handle that works, and nothing is under way that
turns it off. -/
structure UpcallHeld (os : Os) (d : Daemon) : Prop where
  live : os.Live d.kern
  on : os.Upcall true
  mode : d.mode = .enforcement
  stays : .setUpcall false ∉ d.pc.ops ∧ .openBackend ∉ d.pc.ops
  running : ∀ ops, d.pc ≠ .stopping ops

/-- The steps of the main thread that leave UDP governed. -/
structure MainSafe (inp : Input) (w : World) (d : Daemon) : Prop where
  /-- The loop is entered with UDP on divert. -/
  enters : d.pc = .starting [] → w.os.udpdivert = true
  /-- Turning the upcall on succeeds. -/
  enables : d.pc.ops.head? = some (.setUpcall true) → inp.ioctl 0 = .ok ∧ w.os.Live d.kern
  /-- The device does not fail while the rule is retired, or is about to be. -/
  device : d.pc.inLoop = true → w.os.udpdivert = false ∨ .setUdpDivert false ∈ d.pc.ops →
    ∀ n, inp.ioctl n ≠ .fail true
  /-- The daemon is not stopped while the rule is retired. -/
  stops : w.os.udpdivert = false → d.pc = .top → d.shutdown = false
  /-- Nor does a reload switch the backend, or leave enforcement. -/
  reloads : w.os.udpdivert = false → d.pc.ops.head? = some .reload →
    (Policy.loadFile w.os.policyData).attributionMode = d.pol.attributionMode ∧
      (Policy.loadFile w.os.policyData).modeOr d.fallback = .enforcement

/-- The steps that leave UDP governed: nothing takes the upcall away while the
rule is retired, and nobody retires the rule while the upcall is not held. -/
def CoverageSafe (w : World) (ev : Event) : Prop :=
  ∀ d, w.daemon = some d →
    match ev with
    | .daemon inp => MainSafe inp w d
    | .unloadModule | .kernelReset =>
      d.pc.inLoop = true → w.os.udpdivert = true ∧ .setUdpDivert false ∉ d.pc.ops
    | .crash => d.pc.inLoop = true → w.os.udpdivert = true
    | .pfAnchor false => d.pc.inLoop = true → UpcallHeld w.os d
    | _ => True

/-- In the loop the rule is loaded or the upcall is held, and a rule that is
about to be retired has the upcall in its place. -/
structure UdpCovered (w : World) : Prop where
  shaped : Shaped w
  governed : ∀ d, w.daemon = some d → d.pc.inLoop = true →
    w.os.udpdivert = true ∨ UpcallHeld w.os d
  mode : ∀ d, w.daemon = some d → .openReader ∈ d.pc.ops ∨ .setUdpDivert false ∈ d.pc.ops →
    d.mode = .enforcement
  enabled : ∀ d, w.daemon = some d → .setUdpDivert false ∈ d.pc.ops →
    .setUpcall true ∈ d.pc.ops ∨ w.os.Live d.kern ∧ w.os.Upcall true

variable {w w' : World} {ev : Event} {o : List Output} {inp : Input} {os : Os} {d d' : Daemon}

/-! ## what touches the rule -/

/-- The main thread touches the rule by its one effect only. -/
theorem MainStep.udpdivert (hstep : MainStep inp os d w' o)
    (hop : ∀ divert, d.pc.ops.head? ≠ some (.setUdpDivert divert)) :
    w'.os.udpdivert = os.udpdivert := by
  cases hstep with
  | moves => rfl
  | exits => exact (closeAll_frame os d).udpdivert
  | answer hpc hrx hdrain =>
      obtain ⟨os₁, kern, pol, ls, hr, -, rfl, -⟩ := drainAnswer_cases hdrain
      exact (os₁.appendPolicy_udpdivert inp ls).trans (Os.sameRest_of_resolveAll hr).udpdivert
  | upcall hpc hurx hdrain =>
      cases drainUpcall_cases hdrain with
      | resolved hv hr => exact (Os.sameRest_of_resolveAll hr).udpdivert
      | asked => rfl
  | @effect op rest extra next os' _ hpc hrun =>
      rw [hpc.ops.1, List.head?_cons] at hop
      have hfst : (op.run inp os d).1 = os' := by rw [hrun]
      subst hfst
      cases op with
      | setUdpDivert divert => exact absurd rfl (hop divert)
      | openBackend => exact (kernBackend_frame inp os d).1.udpdivert
      | reopen => exact (reopenBackend_frame inp os d).1.udpdivert
      | flushVerdicts | setUpcall on => exact (Os.sameRest_kernIoctl _ _ _ _).udpdivert
      | bind =>
          simp only [Op.run]
          split
          · rfl
          · exact (closeAll_frame os d).udpdivert
      | checkMtime | reconcile | openReader =>
          simp only [Op.run]
          repeat' split
          all_goals rfl
      | loadPolicy | readMtime | reload | clearDecided | spawnReader | markOn | markOff => rfl
  | packet hpc hpkt hr =>
      have hcase := hr ▸ handlePacket_cases inp os d _ _
      cases hcase with
      | unjudged | dns | fast => rfl
      | slow hparse hdns hsrc hopens hlookup hkern hslow =>
          cases hslow with
          | settled hv hpush =>
              obtain ⟨rfl, -⟩ | ⟨_, -, -, rfl, -⟩ := pushSettled_cases hpush
              · rfl
              · exact (Os.sameRest_kernIoctl _ _ _ _).udpdivert
          | held => rfl
          | learned => exact os.appendPolicy_udpdivert inp _

omit [Casing] in
/-- Around the main thread only the anchor's keepers touch the rule. -/
theorem Outside.udpdivert (hout : Outside w ev w' o) :
    w'.os.udpdivert = w.os.udpdivert ∨ ∃ loaded, ev = .pfAnchor loaded ∧
      w' = { w with os := { w.os with udpdivert := loaded } } := by
  cases hout with
  | pfAnchor => exact .inr ⟨_, rfl, rfl⟩
  | crash => exact .inl (closeAll_frame _ _).udpdivert
  | readerEnd => exact .inl (Os.sameRest_closed _ _).udpdivert
  | _ => exact .inl rfl

/-! ## while the rule is retired -/

omit [Casing] in
/-- In the loop nothing of start-up is to come. -/
theorem not_starting_of_inLoop (hshape : d.pc.ops ∈ d.pc.shapes) (hloop : d.pc.inLoop = true) :
    .loadPolicy ∉ d.pc.ops ∧ .bind ∉ d.pc.ops := by
  have hall : ∀ ops ∈ tickShapes false ++ tickShapes true ++ (learnShapes ++ stopShapes),
      .loadPolicy ∉ ops ∧ .bind ∉ ops := by decide
  generalize d.pc = pc at hshape hloop
  cases pc with
  | starting ops => cases hloop
  | ticking reloaded ops =>
      refine hall ops (List.mem_append_left _ ?_)
      cases reloaded
      · exact List.mem_append_left _ hshape
      · exact List.mem_append_right _ hshape
  | learning ops => exact hall ops (List.mem_append_right _ (List.mem_append_left _ hshape))
  | stopping ops => exact hall ops (List.mem_append_right _ (List.mem_append_right _ hshape))
  | _ => simp [Pc.ops]

omit [Casing] in
/-- Only a reload and the reconciliation ask for the upcall to be turned off or
the backend to be opened. -/
theorem extras_hold {op : Op} (hreload : op ≠ .reload) (hrec : op ≠ .reconcile) :
    ∀ extra ∈ op.extras, .setUpcall false ∉ extra ∧ .openBackend ∉ extra := by
  cases op with
  | reload => exact absurd rfl hreload
  | reconcile => exact absurd rfl hrec
  | _ => decide +revert

/-- While the upcall is held, neither an effect nor what it asks for ends it. -/
theorem UpcallHeld.effect {op : Op} {extra : List Op} {os' : Os} {d₁ : Daemon}
    (hheld : UpcallHeld w.os d) (hrun : op.run inp w.os d = (os', some d₁, extra))
    (hload : op ≠ .loadPolicy)
    (hreloads : op = .reload → (d.loadFrom w.os).pol.attributionMode = d.pol.attributionMode ∧
      (d.loadFrom w.os).mode = .enforcement) :
    d₁.mode = .enforcement ∧ .setUpcall false ∉ extra ∧ .openBackend ∉ extra := by
  by_cases hreload : op = .reload
  · obtain ⟨hattr, hmode⟩ := hreloads hreload
    subst hreload
    simp only [Op.run, reloadPolicy, Prod.mk.injEq, Option.some.injEq] at hrun
    obtain ⟨-, rfl, rfl⟩ := hrun
    exact ⟨hmode, by simp [hattr], by simp [hattr]⟩
  have hmode := ((Op.run_keeps hrun).pol hload hreload).2.trans hheld.mode
  by_cases hrec : op = .reconcile
  · subst hrec
    obtain ⟨h, hkern, -⟩ := Os.live_iff.mp hheld.live
    have hwant : d.wantUpcall = true := by
      simp [Daemon.wantUpcall, hkern, hheld.mode, Mode.enforcing]
    refine ⟨hmode, ?_⟩
    simp only [Op.run, hwant, Bool.true_and, Bool.not_true, Bool.false_and,
      Bool.false_eq_true, if_false] at hrun
    split at hrun <;> simp only [Prod.mk.injEq] at hrun <;> rw [← hrun.2.2] <;> decide
  · exact ⟨hmode, extras_hold hreload hrec extra (Op.extra_mem_extras hrun)⟩

/-- While the rule is retired, a step of the main thread keeps hold of the
upcall. -/
theorem MainStep.held (hstep : MainStep inp w.os d w' o) (hsafe : MainSafe inp w d)
    (hshape : d.pc.ops ∈ d.pc.shapes) (hloop : d.pc.inLoop = true)
    (hdivert : w.os.udpdivert = false) (hheld : UpcallHeld w.os d) :
    ∃ d', w'.daemon = some d' ∧ UpcallHeld w'.os d' := by
  obtain ⟨hload, hbind⟩ := not_starting_of_inLoop hshape hloop
  obtain ⟨hoff, hbackend⟩ := hheld.stays
  have head : ∀ {op}, op ∉ d.pc.ops → d.pc.ops.head? ≠ some op := fun hop h =>
    hop (List.mem_of_mem_head? h)
  have hdev := hsafe.device hloop (.inl hdivert)
  obtain ⟨d', hd'⟩ := hstep.survives (hheld.running []) (head hbind)
  have hlive := hstep.live hdev (head hbackend) hd' hheld.live
  have hon : w'.os.Upcall true := by
    refine hstep.upcall_flag hheld.on (fun on hset => ?_) fun _ =>
      ⟨hheld.live, head hbackend, by simp [hd']⟩
    cases on with
    | true => rfl
    | false => exact absurd hset (head hoff)
  obtain ⟨hpc, hdrain⟩ | ⟨_, hm⟩ | ⟨hrecv, hpc⟩ | ⟨op, rest, extra, next, d₁, heff, hrun, rfl⟩ :=
    hstep.next hd'
  · -- a channel is drained
    obtain ⟨-, hmode⟩ := hstep.settings hd' (head hload) (by rcases hdrain with h | h <;> simp [h, Pc.ops])
    refine ⟨d', hd', hlive, hon, hmode.trans hheld.mode, ?_, ?_⟩
    · rw [hpc]
      exact hheld.stays
    · rw [hpc]
      exact hheld.running
  · have hmode := (hstep.settings hd' (head hload) (by simp [hm.ops.1])).2
    refine ⟨d', hd', hlive, hon, hmode.trans hheld.mode, ?_, ?_⟩
    · generalize d'.pc = pc at hm
      cases hm with
      | shutdown htop hs => exact absurd hs (by simp [hsafe.stops hdivert htop])
      | tick => decide
      | _ => simp [Pc.ops]
    · generalize d'.pc = pc at hm
      cases hm with
      | shutdown htop hs => exact absurd hs (by simp [hsafe.stops hdivert htop])
      | _ => simp
  · -- a flow has been learned
    have hmode := (hstep.settings hd' (head hload) (by simp [hrecv, Pc.ops])).2
    refine ⟨d', hd', hlive, hon, hmode.trans hheld.mode, ?_, ?_⟩ <;> rw [hpc]
    · decide
    · simp
  · -- an effect: neither it nor what it asks for ends the upcall
    have hops := heff.ops.1
    rw [hops, List.mem_cons, not_or] at hoff hbackend
    have hkeep := hheld.effect hrun
      (fun h => hload (by rw [hops, h]; exact List.mem_cons_self))
      fun h => hsafe.reloads hdivert (by rw [hops, h]; rfl)
    refine ⟨_, hd', hlive, hon, hkeep.1, ?_, ?_⟩
    · rw [heff.ops.2]
      simp only [List.mem_append, not_or]
      exact ⟨⟨hkeep.2.1, hoff.2⟩, ⟨hkeep.2.2, hbackend.2⟩⟩
    · have hrunning := hheld.running
      generalize d.pc = pc at heff hrunning
      cases heff with
      | stopping => exact absurd rfl (hrunning _)
      | _ => simp

/-- While the rule is retired, nothing around the main thread takes the upcall
away. -/
theorem Outside.held (hout : Outside w ev w' o) (hd : w.daemon = some d)
    (hsafe : CoverageSafe w ev) (hloop : d.pc.inLoop = true)
    (hdivert : w.os.udpdivert = false) (hheld : UpcallHeld w.os d) :
    ∃ d', w'.daemon = some d' ∧ UpcallHeld w'.os d' := by
  have hsafe := hsafe d hd
  have hstays : ev ≠ .unloadModule ∧ ev ≠ .kernelReset ∧ ev ≠ .crash := by
    refine ⟨?_, ?_, ?_⟩ <;> rintro rfl
    · exact absurd (hsafe hloop).1 (by simp [hdivert])
    · exact absurd (hsafe hloop).1 (by simp [hdivert])
    · exact absurd (hsafe hloop) (by simp [hdivert])
  have hlive : w'.os.Live d.kern :=
    (hout.live hheld.live).resolve_right fun h => hstays.1 h.1
  obtain hnone | ⟨_, hnone, -⟩ | ⟨d₀, d', hd₀, hd', hmain⟩ := hout.daemon
  · exfalso
    cases hout with
    | crash => exact hstays.2.2 rfl
    | startDaemon | signal | promptDone | readerEnd | readerRead | readerSend => cases hnone
    | _ => cases hd.symm.trans hnone
  · cases hd.symm.trans hnone
  · obtain rfl := Option.some.inj (hd.symm.trans hd₀)
    have hon := hout.upcall_flag hheld.on fun _ =>
      ⟨hstays.2.1, by simp [hd'], d, hd, hheld.live⟩
    obtain ⟨_, _, _, _, _, rfl⟩ := hmain
    exact ⟨_, hd', hlive, hon, hheld.mode, hheld.stays, hheld.running⟩

/-! ## until the rule is retired -/

omit [Casing] in
/-- While the rule is about to be retired, nothing else is to come but turning
the upcall on. -/
theorem enabling_shape : ∀ ops ∈ allShapes, .setUdpDivert false ∈ ops →
    .setUpcall false ∉ ops ∧ .openBackend ∉ ops ∧ ops ∉ startShapes ∧ ops ∉ stopShapes ∧
      (ops.head? = some (.setUdpDivert false) → .setUpcall true ∉ ops) := by
  decide

omit [Casing] in
theorem inLoop_of_enabling (hshape : d.pc.ops ∈ d.pc.shapes) (hmem : .setUdpDivert false ∈ d.pc.ops) :
    d.pc.inLoop = true := by
  have hstart := (enabling_shape _ (d.pc.shapes_subset hshape) hmem).2.2.1
  generalize d.pc = pc at hshape hstart
  cases pc with
  | starting => exact absurd hshape hstart
  | _ => rfl

omit [Casing] in
/-- The rule is retired at the end of what opening the reader asks for, and the
reader is opened because of the reconciliation. -/
theorem extras_enable {op : Op} : ∀ extra ∈ op.extras,
    (.setUdpDivert false ∈ extra → op = .openReader ∧ .setUpcall true ∈ extra) ∧
      (.openReader ∈ extra → op = .reconcile) := by
  cases op <;> decide +revert

/-- Turning the upcall on through a handle that works turns it on. -/
theorem upcall_of_setUpcall {extra : List Op} (hlive : os.Live d.kern) (hok : inp.ioctl 0 = .ok)
    {os' : Os} (hrun : Op.run (.setUpcall true) inp os d = (os', some d', extra)) :
    os'.Live d'.kern ∧ os'.Upcall true := by
  simp only [Op.run, hok, Prod.mk.injEq, Option.some.injEq] at hrun
  obtain ⟨rfl, rfl, -⟩ := hrun
  refine ⟨(Os.live_kernIoctl (by decide)).mpr hlive, ?_⟩
  obtain ⟨k, hk, -, heq⟩ | ⟨-, hdead⟩ :=
    Os.kernIoctl_cases os d.kern .ok fun k => k.upcallSet true
  · rw [heq]
    rintro _ ⟨⟩
    rfl
  · exact absurd hlive (hdead rfl)

/-- A step of the main thread leaves UDP governed. -/
theorem MainStep.governed (hstep : MainStep inp w.os d w' o) (hd : w.daemon = some d)
    (hsafe : MainSafe inp w d) (hinv : UdpCovered w) (hd' : w'.daemon = some d')
    (hloop' : d'.pc.inLoop = true) : w'.os.udpdivert = true ∨ UpcallHeld w'.os d' := by
  have hshape := hinv.shaped d hd
  by_cases hloop : d.pc.inLoop = true
  · cases hdivert : w.os.udpdivert with
    | false =>
        have hheld := (hinv.governed d hd hloop).resolve_left (by simp [hdivert])
        obtain ⟨d₁, hd₁, hheld'⟩ := hstep.held hsafe hshape hloop hdivert hheld
        obtain rfl := Option.some.inj (hd₁.symm.trans hd')
        exact .inr hheld'
    | true =>
        by_cases hhead : ∃ divert, d.pc.ops.head? = some (.setUdpDivert divert)
        · obtain ⟨divert, hhead⟩ := hhead
          have hmem := List.mem_of_mem_head? hhead
          obtain ⟨rest, extra, next, os', d₁, heff, hrun, rfl⟩ := hstep.effect_of_head hhead
          simp only [Op.run, Prod.mk.injEq] at hrun
          obtain ⟨rfl, rfl, rfl⟩ := hrun
          obtain rfl := Option.some.inj hd'
          split
          · cases divert with
            | true => exact .inl rfl
            | false =>
                obtain ⟨hoff, hbackend, -, hstop, honly⟩ :=
                  enabling_shape _ (d.pc.shapes_subset hshape) hmem
                obtain ⟨hlive, hon⟩ := (hinv.enabled d hd hmem).resolve_left (honly hhead)
                rw [heff.ops.1, List.mem_cons, not_or] at hoff hbackend
                refine .inr ⟨hlive, hon, hinv.mode d hd (.inr hmem), ?_, ?_⟩
                · rw [heff.ops.2]
                  exact ⟨hoff.2, hbackend.2⟩
                · generalize d.pc = pc at heff hshape hstop
                  cases heff with
                  | stopping => exact absurd hshape hstop
                  | _ => simp
          · exact .inl hdivert
        · left
          rw [hstep.udpdivert fun divert h => hhead ⟨divert, h⟩, hdivert]
  · left
    obtain ⟨hpc, -⟩ | ⟨_, hm⟩ | ⟨hrecv, -⟩ | ⟨op, rest, extra, next, d₁, heff, hrun, rfl⟩ :=
      hstep.next hd'
    · exact absurd (hpc ▸ hloop') hloop
    · generalize d'.pc = pc at hm
      cases hm with
      | started hpc =>
          rw [hstep.udpdivert (by simp [hpc, Pc.ops]), hsafe.enters hpc]
      | shutdown hpc | drain hpc | answered hpc | asked hpc | tick hpc | noTick hpc | ticked hpc
      | quiet hpc | learned hpc => simp [hpc, Pc.inLoop] at hloop
    · simp [hrecv, Pc.inLoop] at hloop
    · generalize d.pc = pc at heff hloop
      cases heff with
      | starting => cases hloop'
      | ticking | learning | stopping => exact absurd rfl hloop

omit [Casing] in
/-- Opening the reader and retiring the rule stay to come, or are asked for in
their turn. -/
theorem not_mem_of_moves {pc : Pc} {lastCheck : Nat} (hm : Moves os d pc lastCheck) :
    .openReader ∉ pc.ops ∧ .setUdpDivert false ∉ pc.ops := by
  obtain h | h | h := hm.ops.2 <;> rw [h]
  · exact ⟨List.not_mem_nil, List.not_mem_nil⟩
  · decide
  · cases d.upcallOn <;> decide

omit [Casing] in
/-- No policy is read before the rule is retired. -/
theorem not_reading_shape : ∀ ops ∈ allShapes,
    .openReader ∈ ops.tail ∨ .setUdpDivert false ∈ ops.tail →
      ops.head? ≠ some .loadPolicy ∧ ops.head? ≠ some .reload := by
  decide

/-- The rule is retired in enforcement only. -/
theorem MainStep.enforces (hstep : MainStep inp w.os d w' o) (hd : w.daemon = some d)
    (hinv : UdpCovered w) (hd' : w'.daemon = some d')
    (hmem : .openReader ∈ d'.pc.ops ∨ .setUdpDivert false ∈ d'.pc.ops) : d'.mode = .enforcement := by
  obtain ⟨hpc, hdrain⟩ | ⟨_, hm⟩ | ⟨-, hpc⟩ | ⟨op, rest, extra, next, d₁, heff, hrun, rfl⟩ :=
    hstep.next hd'
  · rw [hpc] at hmem
    rcases hdrain with h | h <;> simp [h, Pc.ops] at hmem
  · exact absurd hmem (not_or.mpr (not_mem_of_moves hm))
  · simp [hpc, Pc.ops] at hmem
  · have hops := heff.ops.1
    simp only [heff.ops.2, List.mem_append] at hmem
    have hkeep : d.mode = .enforcement → op ≠ .loadPolicy → op ≠ .reload →
        d₁.mode = .enforcement := fun h hload hreload =>
      ((Op.run_keeps hrun).pol hload hreload).2.trans h
    by_cases hrest : .openReader ∈ rest ∨ .setUdpDivert false ∈ rest
    · have hread := not_reading_shape _ (d.pc.shapes_subset (hinv.shaped d hd))
        (by rwa [hops, List.tail_cons])
      rw [hops, List.head?_cons] at hread
      refine hkeep (hinv.mode d hd ?_) (by simpa using hread.1) (by simpa using hread.2)
      rw [hops]
      exact hrest.imp (List.mem_cons_of_mem _) (List.mem_cons_of_mem _)
    · have hextra : .openReader ∈ extra ∨ .setUdpDivert false ∈ extra := by tauto
      obtain ⟨hretire, hreader⟩ := extras_enable extra (Op.extra_mem_extras hrun)
      rcases hextra with h | h
      · -- the reconciliation wants the upcall
        obtain rfl := hreader h
        refine hkeep ?_ (by simp) (by simp)
        simp only [Op.run] at hrun
        split at hrun
        · rename_i hwant
          simp only [Daemon.wantUpcall, Bool.and_eq_true] at hwant
          exact Mode.enforcing_iff.mp hwant.1.2
        · split at hrun <;> simp only [Prod.mk.injEq] at hrun <;> rw [← hrun.2.2] at h <;>
            simp [teardown] at h
      · obtain rfl := (hretire h).1
        refine hkeep (hinv.mode d hd (.inl ?_)) (by simp) (by simp)
        rw [hops]
        exact List.mem_cons_self

/-- Before the rule is retired the upcall is turned on. -/
theorem MainStep.enabled (hstep : MainStep inp w.os d w' o) (hd : w.daemon = some d)
    (hsafe : MainSafe inp w d) (hinv : UdpCovered w) (hd' : w'.daemon = some d')
    (hmem : .setUdpDivert false ∈ d'.pc.ops) :
    .setUpcall true ∈ d'.pc.ops ∨ w'.os.Live d'.kern ∧ w'.os.Upcall true := by
  obtain ⟨hpc, hdrain⟩ | ⟨_, hm⟩ | ⟨-, hpc⟩ | ⟨op, rest, extra, next, d₁, heff, hrun, rfl⟩ :=
    hstep.next hd'
  · rw [hpc] at hmem
    rcases hdrain with h | h <;> simp [h, Pc.ops] at hmem
  · exact absurd hmem (not_mem_of_moves hm).2
  · simp [hpc, Pc.ops] at hmem
  · have hops := heff.ops.1
    simp only [heff.ops.2, List.mem_append] at hmem ⊢
    obtain hextra | hrest := hmem
    · obtain ⟨hretire, -⟩ := extras_enable extra (Op.extra_mem_extras hrun)
      exact .inl (.inl (hretire hextra).2)
    · have hmem : .setUdpDivert false ∈ d.pc.ops := by
        rw [hops]
        exact List.mem_cons_of_mem _ hrest
      have hshape := hinv.shaped d hd
      obtain ⟨hoff, hbackend, -⟩ := enabling_shape _ (d.pc.shapes_subset hshape) hmem
      obtain hset | ⟨hlive, hon⟩ := hinv.enabled d hd hmem
      · rw [hops, List.mem_cons] at hset
        obtain rfl | hset := hset
        · obtain ⟨hok, hlive⟩ := hsafe.enables (by rw [hops]; rfl)
          exact .inr (upcall_of_setUpcall hlive hok hrun)
        · exact .inl (.inr hset)
      · have hloop := inLoop_of_enabling hshape hmem
        have head : ∀ {op}, op ∉ d.pc.ops → d.pc.ops.head? ≠ some op := fun hop h =>
          hop (List.mem_of_mem_head? h)
        have hlive' := hstep.live (hsafe.device hloop (.inr hmem)) (head hbackend) hd' hlive
        refine .inr ⟨hlive', ?_⟩
        refine hstep.upcall_flag hon (fun on hset => ?_) fun _ => ⟨hlive, head hbackend, by simp [hd']⟩
        cases on with
        | true => rfl
        | false => exact absurd hset (head hoff)

/-! ## every step -/

/-- Around the main thread, a rule about to be retired keeps the upcall. -/
theorem Outside.enabled (hout : Outside w ev w' o) (hd : w.daemon = some d)
    (hsafe : CoverageSafe w ev) (hd' : w'.daemon = some d') (hloop : d.pc.inLoop = true)
    (hmem : .setUdpDivert false ∈ d.pc.ops) (hlive : w.os.Live d.kern) (hon : w.os.Upcall true) :
    w'.os.Live d.kern ∧ w'.os.Upcall true := by
  have hsafe := hsafe d hd
  have hunload : ev ≠ .unloadModule := by
    rintro rfl
    exact (hsafe hloop).2 hmem
  have hreset : ev ≠ .kernelReset := by
    rintro rfl
    exact (hsafe hloop).2 hmem
  exact ⟨(hout.live hlive).resolve_right fun h => hunload h.1,
    hout.upcall_flag hon fun _ => ⟨hreset, by simp [hd'], d, hd, hlive⟩⟩

/-- Every safe step leaves UDP governed. -/
theorem step_covered (h : w.step ev = some (w', o)) (hsafe : CoverageSafe w ev)
    (hinv : UdpCovered w) : UdpCovered w' := by
  have hshaped := step_shaped h hinv.shaped
  obtain ⟨inp, d, rfl, hd, hmain⟩ | hout := step_cases h
  · have hsafe := hsafe d hd
    exact ⟨hshaped, fun d' hd' => hmain.governed hd hsafe hinv hd',
      fun d' hd' => hmain.enforces hd hinv hd', fun d' hd' => hmain.enabled hd hsafe hinv hd'⟩
  · obtain hnone | ⟨fallback, -, hnew⟩ | ⟨d, d', hd, hd', hmain⟩ := hout.daemon
    · exact ⟨hshaped, by simp [hnone], by simp [hnone], by simp [hnone]⟩
    · refine ⟨hshaped, ?_, ?_, ?_⟩ <;> intro d' hd' <;>
        obtain rfl := Option.some.inj (hnew.symm.trans hd')
      · rintro ⟨⟩
      · exact fun h => absurd h (by decide : ¬ (Op.openReader ∈ startOps ∨ .setUdpDivert false ∈ startOps))
      · exact fun h => absurd h (by decide : Op.setUdpDivert false ∉ startOps)
    · refine ⟨hshaped, ?_, ?_, ?_⟩ <;> intro d₁ hd₁ <;>
        obtain rfl := Option.some.inj (hd'.symm.trans hd₁)
      · intro hloop
        have hpc : d'.pc = d.pc := by
          obtain ⟨_, _, _, _, _, rfl⟩ := hmain
          rfl
        rw [hpc] at hloop
        cases hdivert : w.os.udpdivert with
        | false =>
            have hheld := (hinv.governed d hd hloop).resolve_left (by simp [hdivert])
            obtain ⟨d₁, hd₁, hheld'⟩ := hout.held hd hsafe hloop hdivert hheld
            obtain rfl := Option.some.inj (hd₁.symm.trans hd')
            exact .inr hheld'
        | true =>
            obtain hsame | ⟨loaded, rfl, rfl⟩ := hout.udpdivert
            · exact .inl (hsame.trans hdivert)
            · cases loaded with
              | true => exact .inl rfl
              | false =>
                  obtain rfl := Option.some.inj (hd.symm.trans hd')
                  obtain ⟨hlive, hon, hmode, hstays, hrunning⟩ := hsafe d hd hloop
                  exact .inr ⟨hlive.congr rfl rfl, hon, hmode, hstays, hrunning⟩
      · obtain ⟨_, _, _, _, _, rfl⟩ := hmain
        exact hinv.mode d hd
      · intro hmem
        obtain ⟨_, _, _, _, _, rfl⟩ := hmain
        refine (hinv.enabled d hd hmem).imp_right fun ⟨hlive, hon⟩ => ?_
        have hloop := inLoop_of_enabling (hinv.shaped d hd) hmem
        exact Outside.enabled (d := d) hout hd hsafe hd' hloop hmem hlive hon

theorem reachable_covered (h : Reachable CoverageSafe w) : UdpCovered w := by
  obtain ⟨w₀, hinit, hrun⟩ := h
  exact hrun.invariant ⟨hinit.no_daemon, hinit.no_daemon, hinit.no_daemon, hinit.no_daemon⟩
    fun _ _ _ _ hinv hsafe hstep => step_covered hstep hsafe hinv

/-! ## UDP is governed -/

omit [Casing] in
theorem upcallOn_of_live {kern : Option Handle} (hlive : os.Live kern) (hon : os.Upcall true) :
    os.upcallOn = true := by
  obtain ⟨k, hk⟩ := hlive
  simp [Os.upcallOn, hk.kmod, hon k hk.kmod]

/-- The upcall is given up only while the rule is loaded. -/
theorem divert_of_upcall_given_up (hinv : UdpCovered w) (hd : w.daemon = some d)
    (hloop : d.pc.inLoop = true) (hsafe : CoverageSafe w ev) (h : w.step ev = some (w', o))
    (hoff : w'.os.upcallOn = false) : w.os.udpdivert = true := by
  by_contra hdivert
  rw [Bool.not_eq_true] at hdivert
  have hheld := (hinv.governed d hd hloop).resolve_left (by simp [hdivert])
  obtain ⟨d', -, hheld'⟩ : ∃ d', w'.daemon = some d' ∧ UpcallHeld w'.os d' := by
    obtain ⟨inp, d₀, rfl, hd₀, hmain⟩ | hout := step_cases h
    · obtain rfl := Option.some.inj (hd.symm.trans hd₀)
      exact hmain.held (hsafe d hd) (hinv.shaped d hd) hloop hdivert hheld
    · exact hout.held hd hsafe hloop hdivert hheld
  rw [upcallOn_of_live hheld'.live hheld'.on] at hoff
  cases hoff

/-- The rule is given up only while the upcall is on. -/
theorem upcall_of_divert_given_up (hinv : UdpCovered w) (hd : w.daemon = some d)
    (hloop : d.pc.inLoop = true) (hsafe : CoverageSafe w ev) (h : w.step ev = some (w', o))
    (hdivert : w.os.udpdivert = true) (hoff : w'.os.udpdivert = false) :
    w.os.upcallOn = true := by
  obtain ⟨inp, d₀, rfl, hd₀, hmain⟩ | hout := step_cases h
  · obtain rfl := Option.some.inj (hd.symm.trans hd₀)
    by_cases hhead : ∃ divert, d.pc.ops.head? = some (.setUdpDivert divert)
    · obtain ⟨divert, hhead⟩ := hhead
      have hmem := List.mem_of_mem_head? hhead
      obtain ⟨rest, extra, next, os', d₁, heff, hrun, rfl⟩ := hmain.effect_of_head hhead
      simp only [Op.run, Prod.mk.injEq] at hrun
      obtain ⟨rfl, -, -⟩ := hrun
      cases divert with
      | true =>
          simp only at hoff
          split at hoff <;> simp [hdivert] at hoff
      | false =>
          have honly := (enabling_shape _ (d.pc.shapes_subset (hinv.shaped d hd)) hmem).2.2.2.2
          obtain ⟨hlive, hon⟩ := (hinv.enabled d hd hmem).resolve_left (honly hhead)
          exact upcallOn_of_live hlive hon
    · rw [hmain.udpdivert fun divert h => hhead ⟨divert, h⟩, hdivert] at hoff
      cases hoff
  · obtain hsame | ⟨loaded, rfl, rfl⟩ := hout.udpdivert
    · rw [hsame, hdivert] at hoff
      cases hoff
    · obtain rfl : loaded = false := hoff
      have hheld := hsafe d hd hloop
      exact upcallOn_of_live hheld.live hheld.on

/-- **UDP is never left ungoverned**, in a run of safe steps: in every state of
the daemon's loop the divert rule is loaded or the upcall is on, and a step
gives up one of the two only while the other is there. -/
theorem udp_governed (hw : Reachable CoverageSafe w) (hd : w.daemon = some d)
    (hloop : d.pc.inLoop = true) :
    (w.os.udpdivert = true ∨ w.os.upcallOn = true) ∧
      ∀ ev w' o, CoverageSafe w ev → w.step ev = some (w', o) →
        (w.os.upcallOn = true → w'.os.upcallOn = false → w.os.udpdivert = true) ∧
        (w.os.udpdivert = true → w'.os.udpdivert = false → w.os.upcallOn = true) := by
  have hinv := reachable_covered hw
  refine ⟨?_, fun ev w' o hsafe h => ⟨fun _ hoff => ?_, fun hdivert hoff => ?_⟩⟩
  · exact (hinv.governed d hd hloop).imp_right fun hheld => upcallOn_of_live hheld.live hheld.on
  · exact divert_of_upcall_given_up hinv hd hloop hsafe h hoff
  · exact upcall_of_divert_given_up hinv hd hloop hsafe h hdivert hoff

/-- Steps that are easily seen to be safe. -/
def CoverageCalm (w : World) (ev : Event) : Bool :=
  match ev with
  | .daemon _ => w.daemon.all fun d =>
      (d.pc != .starting [] || w.os.udpdivert) &&
      (d.pc.ops.head? != some (.setUpcall true) ||
        (d.kern.any fun h => !h.dead && h.gen == w.os.gen) && w.os.kmod.isSome) &&
      !d.shutdown && d.pc.ops.head? != some .reload
  | .unloadModule | .kernelReset | .crash | .pfAnchor false => false
  | _ => true

theorem coverageSafe_of_calm (hev : Untroubled ev) (h : CoverageCalm w ev = true) :
    CoverageSafe w ev := by
  intro d hd
  cases ev with
  | daemon inp =>
      simp only [CoverageCalm, hd, Option.all_some, Bool.and_eq_true, Bool.or_eq_true,
        bne_iff_ne, ne_eq, Bool.not_eq_true'] at h
      obtain ⟨⟨⟨henters, henables⟩, hstops⟩, hreload⟩ := h
      refine ⟨fun hpc => henters.resolve_left (not_not.mpr hpc), fun hhead => ⟨hev.1 0, ?_⟩,
        fun _ _ n => by simp [hev.1 n], fun _ _ => hstops, fun _ hhead => absurd hhead hreload⟩
      obtain ⟨hkern, hk⟩ := henables.resolve_left (not_not.mpr hhead)
      obtain ⟨h, hh, hlive⟩ := (Option.any_eq_true _ _).mp hkern
      simp only [Bool.and_eq_true, Bool.not_eq_true', beq_iff_eq] at hlive
      exact Os.live_iff.mpr ⟨h, hh, hlive.1, hlive.2, hk⟩
  | unloadModule | kernelReset | crash => cases h
  | pfAnchor loaded =>
      cases loaded with
      | true => trivial
      | false => cases h
  | _ => trivial

omit [Casing] in
/-- The start-up in enforcement with the kernel backend is such a run: the rule
is retired, and the upcall is on. -/
theorem udp_governed_upcall :
    letI := asciiCasing
    ∃ (w : World) (d : Daemon), w.daemon = some d ∧ d.mode = .enforcement ∧
      w.os.udpdivert = false ∧ w.os.upcallOn = true := by
  let _ := asciiCasing
  obtain ⟨w, hw, hp⟩ := exists_reachable_by_exec (fun w ev => CoverageCalm w ev = true)
    (World.withPolicy "attribution kernel\n") ⟨rfl, rfl⟩ kernelEvents
    (fun w => !w.os.udpdivert && w.daemon.any fun d => d.pc.inLoop && d.mode = .enforcement)
    (by decide +kernel)
  rw [Bool.and_eq_true, Bool.not_eq_true'] at hp
  obtain ⟨hdivert, hp⟩ := hp
  obtain ⟨d, hd, hp⟩ := (Option.any_eq_true _ _).mp hp
  rw [Bool.and_eq_true, decide_eq_true_eq] at hp
  have hsafe : Reachable CoverageSafe w := hw.mono fun w ev h =>
    coverageSafe_of_calm (untroubled_kernelEvents ev h.2) h.1
  exact ⟨w, d, hd, hp.2, hdivert, (udp_governed hsafe hd hp.1).1.resolve_left (by simp [hdivert])⟩

omit [Casing] in
/-- When the policy no longer names the kernel backend, the upcall is off before
the rule is back, although the device does not fail. -/
theorem udp_ungoverned_on_switch :
    letI := asciiCasing
    ¬ ∀ (w : World) (d : Daemon), Reachable (fun _ ev => Untroubled ev) w → w.daemon = some d →
      d.pc.inLoop = true → d.mode = .enforcement →
      w.os.udpdivert = true ∨ w.os.upcallOn = true := by
  let _ := asciiCasing
  intro h
  obtain ⟨w, hw, hp⟩ := exists_reachable_by_exec (fun _ _ => True)
    (World.withPolicy "attribution kernel\n") ⟨rfl, rfl⟩ (kernelEvents ++ editEvents "" 8)
    (fun w => !w.os.udpdivert && !w.os.upcallOn &&
      w.daemon.any fun d => d.pc.inLoop && d.mode = .enforcement)
    (by decide +kernel)
  simp only [Bool.and_eq_true, Bool.not_eq_true'] at hp
  obtain ⟨⟨hdivert, hoff⟩, hp⟩ := hp
  obtain ⟨d, hd, hp⟩ := (Option.any_eq_true _ _).mp hp
  rw [Bool.and_eq_true, decide_eq_true_eq] at hp
  have huntroubled : Reachable (fun _ ev => Untroubled ev) w := hw.mono fun w ev h => by
    obtain h | h := List.mem_append.mp h.2
    · exact untroubled_kernelEvents ev h
    · exact untroubled_editEvents _ _ ev h
  obtain h | h := h w d huntroubled hd hp.1 hp.2
  · simp [hdivert] at h
  · simp [hoff] at h

end Pfsnitch
