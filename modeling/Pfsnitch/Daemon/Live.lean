import Pfsnitch.Daemon.Cache
import Pfsnitch.Daemon.Shape

/-!
# Pfsnitch.Daemon.Live

What the handle, the upcall switch and the settings survive.  Unless an ioctl
reports a loaded module gone, the handle works until the backend is opened anew
or the module is unloaded.  The upcall stays as it is until it is set, reset, or
the device is closed for the last time.  The mode and the attribution change
with the policy file only.
-/

namespace Pfsnitch

open Lib

variable [Casing]

variable {os os' : Os} {kern : Option Handle} {inp : Input} {d d' : Daemon} {w w' : World}
  {o : List Output} {ev : Event}

/-! ## the handle -/

omit [Casing] in
theorem Os.live_iff : os.Live kern ↔
    ∃ h, kern = some h ∧ h.dead = false ∧ h.gen = os.gen ∧ os.kmod.isSome = true := by
  constructor
  · rintro ⟨k, h, hkern, hdead, hreach⟩
    obtain ⟨hgen, hk⟩ := Os.reach_eq_some.mp hreach
    exact ⟨h, hkern, hdead, hgen, by simp [hk]⟩
  · rintro ⟨h, hkern, hdead, hgen, hk⟩
    obtain ⟨k, hk⟩ := Option.isSome_iff_exists.mp hk
    exact ⟨k, h, hkern, hdead, Os.reach_eq_some.mpr ⟨hgen, hk⟩⟩

omit [Casing] in
/-- A handle works as long as the same load of the module is there. -/
theorem Os.Live.congr (h : os.Live kern) (hgen : os'.gen = os.gen)
    (hk : os'.kmod.isSome = os.kmod.isSome) : os'.Live kern := by
  rw [Os.live_iff] at h ⊢
  rwa [hgen, hk]

omit [Casing] in
@[simp] theorem Os.closed_gen (gen : Nat) (stillOpen : Bool) :
    (os.closed gen stillOpen).gen = os.gen := by
  unfold Os.closed
  split <;> rfl

omit [Casing] in
@[simp] theorem Os.closed_isSome (gen : Nat) (stillOpen : Bool) :
    (os.closed gen stillOpen).kmod.isSome = os.kmod.isSome := by
  unfold Os.closed
  split <;> simp

omit [Casing] in
theorem Os.Live.appendPolicy (h : os.Live kern) (inp : Input) (ls : List Str) :
    (os.appendPolicy inp ls).Live kern :=
  h.congr (os.appendPolicy_gen inp ls) (congrArg Option.isSome (os.appendPolicy_kmod inp ls))

omit [Casing] in
/-- The daemon whose handle works holds the device open. -/
theorem Os.Live.holdsDevice (h : os.Live d.kern) : d.holdsDevice os.gen = true := by
  obtain ⟨h, hkern, -, hgen, -⟩ := Os.live_iff.mp h
  simp [Daemon.holdsDevice, hkern, hgen]

omit [Casing] in
/-- A device that opens works, and without a module there is nothing to open. -/
theorem Os.live_openDevice : os.Live (openDevice os true) ∨ os.kmod = none := by
  cases hk : os.kmod with
  | none => exact .inr rfl
  | some k => exact .inl (Os.live_iff.mpr ⟨_, by simp [openDevice, hk]; rfl, rfl, rfl, by simp [hk]⟩)

omit [Casing] in
theorem Os.Live.resolveAll {kern' : Option Handle} {v : KVerdict} {n : Nat} {ids : List Nat}
    (h : os.Live kern) (hok : ∀ n, inp.ioctl n ≠ .fail true)
    (hr : Pfsnitch.resolveAll inp v n ids os kern = (os', kern')) : os'.Live kern' := by
  have hlive := (Os.live_resolveAll hok v n ids).mpr h
  rwa [hr] at hlive

omit [Casing] in
/-- Asking the kernel about a flow does not end the handle. -/
theorem Os.Live.asksKern (h : os.Live d.kern) (hok : ∀ n, inp.ioctl n ≠ .fail true)
    (hkern : asksKern inp os d kern) : os.Live kern := by
  obtain rfl | rfl := hkern
  · exact h
  · refine ((Os.live_kernIoctl (hok 0)).mpr h).congr ?_ ?_ <;>
      rcases Os.kernIoctl_cases os d.kern (inp.ioctl 0) id with ⟨k, hk, -, heq⟩ | ⟨heq, -⟩ <;>
      simp [heq]
    simp [hk.kmod]

omit [Casing] in
/-- Around the main thread, a handle ends with the module only. -/
theorem Outside.live (hout : Outside w ev w' o) (h : w.os.Live kern) :
    w'.os.Live kern ∨ ev = .unloadModule ∧ w'.os.kmod = none := by
  have hsome : w.os.kmod.isSome = true := by
    obtain ⟨_, -, -, -, hk⟩ := Os.live_iff.mp h
    exact hk
  cases hout with
  | unloadModule => exact .inr ⟨rfl, rfl⟩
  | loadModule hk => simp [hk] at hsome
  | crash =>
      refine .inl (h.congr ?_ ?_) <;> (unfold closeAll; split <;> simp)
  | readerEnd => exact .inl (h.congr (Os.closed_gen _ _) (Os.closed_isSome _ _))
  | readerRead | hook => exact .inl (h.congr rfl hsome.symm)
  | setFailmode | kernelReset => exact .inl (h.congr rfl (by simp [Os.mapKmod]))
  | startDaemon | signal | promptDone | readerSend | noHook | editPolicy | changeEnv | wait |
    pfAnchor => exact .inl (h.congr rfl rfl)

omit [Casing] in
/-- A handle that works is not reopened. -/
theorem reopenBackend_of_live (h : os.Live d.kern) : reopenBackend inp os d = (os, d, []) := by
  obtain ⟨hd, hkern, hdead, -⟩ := Os.live_iff.mp h
  unfold reopenBackend
  split
  · simp [hkern, hdead]
  · rfl

/-- A step of the main thread keeps the handle, unless it opens the backend. -/
theorem MainStep.live (hstep : MainStep inp os d w' o) (hok : ∀ n, inp.ioctl n ≠ .fail true)
    (hop : d.pc.ops.head? ≠ some .openBackend) (hd' : w'.daemon = some d')
    (h : os.Live d.kern) : w'.os.Live d'.kern := by
  cases hstep with
  | moves =>
      obtain rfl := Option.some.inj hd'
      exact h
  | exits => cases hd'
  | answer hpc hrx hdrain =>
      obtain rfl := Option.some.inj hd'
      obtain ⟨os₁, kern, pol, ls, hr, -, rfl, rfl⟩ := drainAnswer_cases hdrain
      exact Os.Live.appendPolicy (h.resolveAll hok hr) inp ls
  | upcall hpc hurx hdrain =>
      obtain rfl := Option.some.inj hd'
      cases drainUpcall_cases hdrain with
      | resolved hv hr => exact h.resolveAll hok hr
      | asked hpath hv hraise =>
          obtain ⟨⟨_, _, rfl⟩, -⟩ := raise_cases hraise
          exact h
  | @effect op rest extra next os' _ hpc hrun =>
      obtain ⟨d₁, rfl, rfl⟩ := Option.map_eq_some_iff.mp hd'
      rw [hpc.ops.1, List.head?_cons] at hop
      change os'.Live d₁.kern
      have hkern := (Op.run_keeps hrun).kern
      cases op with
      | openBackend => exact absurd rfl hop
      | flushVerdicts | setUpcall on =>
          simp only [Op.run, Prod.mk.injEq, Option.some.injEq] at hrun
          obtain ⟨rfl, rfl, -⟩ := hrun
          exact (Os.live_kernIoctl (hok 0)).mpr h
      | reopen =>
          simp only [Op.run, reopenBackend_of_live h, Prod.mk.injEq, Option.some.injEq] at hrun
          obtain ⟨rfl, rfl, -⟩ := hrun
          exact h
      | bind | checkMtime | reconcile | openReader | setUdpDivert =>
          rw [hkern (by simp) (by simp) (by simp) (by simp)]
          simp only [Op.run] at hrun
          repeat' split at hrun
          all_goals
            simp only [Prod.mk.injEq, reduceCtorEq, false_and, and_false] at hrun
            try exact hrun.1 ▸ h.congr rfl rfl
      | loadPolicy | readMtime | reload | clearDecided | spawnReader | markOn | markOff =>
          rw [hkern (by simp) (by simp) (by simp) (by simp)]
          simp only [Op.run, Prod.mk.injEq] at hrun
          exact hrun.1 ▸ h
  | packet hpc hpkt hr =>
      obtain rfl := Option.some.inj hd'
      have hcase := hr ▸ handlePacket_cases inp os d _ _
      cases hcase with
      | unjudged | dns | fast => exact h
      | @slow f kern _ hparse hdns hsrc hopens hlookup hkern hslow =>
          have hlive := h.asksKern hok hkern
          cases hslow with
          | settled hv hpush =>
              obtain ⟨rfl, rfl⟩ | ⟨_, -, -, rfl, rfl⟩ := pushSettled_cases hpush
              · exact hlive
              · exact (Os.live_kernIoctl (hok 1)).mpr hlive
          | held hv hmode hraise =>
              obtain ⟨⟨_, _, rfl⟩, -⟩ := raise_cases hraise
              exact hlive
          | learned => exact hlive.appendPolicy _ _

/-! ## the upcall switch -/

omit [Casing] in
/-- The upcall of the loaded module, if there is one, is on or off. -/
def Os.Upcall (os : Os) (on : Bool) : Prop := os.Module fun k => k.upcallOn = on

omit [Casing] in
/-- Closing a descriptor leaves an upcall off, and one that is on while the
device is still open. -/
theorem Os.Upcall.closed {on : Bool} (h : os.Upcall on) {gen : Nat} {stillOpen : Bool}
    (hopen : on = true → gen = os.gen → stillOpen = true) : (os.closed gen stillOpen).Upcall on := by
  unfold Os.closed
  split
  · rename_i hlast
    intro k' hk'
    obtain ⟨k, hk, rfl⟩ := Option.map_eq_some_iff.mp hk'
    cases on with
    | false => rfl
    | true => exact absurd (hopen rfl hlast.1) (by simp [hlast.2])
  · exact h

omit [Casing] in
theorem Os.upcall_closeAll (h : os.Upcall false) (d : Daemon) : (closeAll os d).Upcall false := by
  unfold closeAll
  split
  · intro k' hk'
    obtain ⟨k, hk, rfl⟩ := Option.map_eq_some_iff.mp hk'
    rfl
  · exact h

omit [Casing] in
/-- The device goes with the daemon that holds it. -/
theorem Os.upcall_closeAll_of_live (h : os.Live d.kern) : (closeAll os d).Upcall false := by
  unfold closeAll
  rw [if_pos h.holdsDevice]
  intro k' hk'
  obtain ⟨k, hk, rfl⟩ := Option.map_eq_some_iff.mp hk'
  rfl

omit [Casing] in
/-- Around the main thread the upcall goes off when it is reset, or with the
module or the daemon; it never goes on. -/
theorem Outside.upcall_flag {on : Bool} (hout : Outside w ev w' o) (h : w.os.Upcall on)
    (hon : on = true → ev ≠ .kernelReset ∧ w'.daemon ≠ none ∧
      ∃ d, w.daemon = some d ∧ w.os.Live d.kern) : w'.os.Upcall on := by
  cases hout with
  | loadModule hk =>
      rintro _ ⟨⟩
      cases on with
      | false => rfl
      | true =>
          obtain ⟨-, -, d, -, hlive⟩ := hon rfl
          obtain ⟨_, -, -, -, hsome⟩ := Os.live_iff.mp hlive
          simp [hk] at hsome
  | unloadModule => rintro _ ⟨⟩
  | crash =>
      cases on with
      | false => exact Os.upcall_closeAll h _
      | true => exact absurd rfl (hon rfl).2.1
  | @readerEnd d i r _ hd hr =>
      refine h.closed fun htrue hgen => ?_
      obtain ⟨-, -, d₁, hd₁, hlive⟩ := hon htrue
      obtain rfl := Option.some.inj (hd.symm.trans hd₁)
      exact hgen ▸ Os.Live.holdsDevice (d := { d with readers := d.readers.eraseIdx i }) hlive
  | @readerRead d i r k k' q _ hd hr hreach hread =>
      rintro _ ⟨⟩
      have hframe := k.read_frame
      rw [hread] at hframe
      exact hframe.2.trans (h k (Os.reach_eq_some.mp hreach).2)
  | @hook so sa memory k k' r hk hr =>
      rintro _ ⟨⟩
      have hframe := k.checkConnect_frame so sa memory (w.os.now / 1000)
      rw [hr] at hframe
      exact hframe.2.trans (h k hk)
  | setFailmode =>
      intro k' hk'
      obtain ⟨k, hk, rfl⟩ := Option.map_eq_some_iff.mp hk'
      exact h k hk
  | kernelReset =>
      intro k' hk'
      obtain ⟨k, hk, rfl⟩ := Option.map_eq_some_iff.mp hk'
      cases on with
      | false => rfl
      | true => exact absurd rfl (hon rfl).1
  | startDaemon | signal | promptDone | readerSend | noHook | editPolicy | changeEnv | wait |
    pfAnchor => exact h

omit [Casing] in
/-- Draining requests leaves the upcall as it is. -/
theorem Os.Upcall.resolveAll {on : Bool} {v : KVerdict} {n : Nat} {ids : List Nat}
    {kern kern' : Option Handle} (h : os.Upcall on)
    (hr : resolveAll inp v n ids os kern = (os', kern')) : os'.Upcall on := by
  have hkeep : (Pfsnitch.resolveAll inp v n ids os kern).1.Upcall on :=
    Os.Module.resolveAll h fun k hk id _ memory => by
      obtain heq | ⟨r, -, -, -, heq, -⟩ := k.resolve_cases id v memory
      · exact heq.symm ▸ hk
      · exact heq.trans hk
  rwa [hr] at hkeep

/-- An effect leaves the upcall as it is, unless it sets it or closes the device. -/
theorem Op.run_upcall {on : Bool} {op : Op} {extra : List Op} {d₁ : Option Daemon}
    (hrun : op.run inp os d = (os', d₁, extra)) (h : os.Upcall on)
    (hset : ∀ c, op = .setUpcall c → c = on)
    (hon : on = true → os.Live d.kern ∧ op ≠ .openBackend ∧ d₁ ≠ none) : os'.Upcall on := by
  have hfst : (op.run inp os d).1 = os' := by rw [hrun]
  subst hfst
  cases op with
  | flushVerdicts => exact Os.Module.kernIoctl h fun _ hk => hk
  | setUpcall c => exact Os.Module.kernIoctl h fun _ _ => hset c rfl
  | openBackend =>
      simp only [Op.run, kernBackend]
      split
      · exact h.closed fun htrue _ => absurd rfl (hon htrue).2.1
      · exact h
  | reopen =>
      cases on with
      | true =>
          simp only [Op.run, reopenBackend_of_live (hon rfl).1]
          exact h
      | false =>
          simp only [Op.run, reopenBackend, closeKern]
          repeat' split
          all_goals first | exact h | exact h.closed (by simp)
  | bind =>
      simp only [Op.run] at hrun ⊢
      split
      · exact h
      · rename_i hbind
        cases on with
        | false => exact Os.upcall_closeAll h d
        | true =>
            rw [if_neg hbind] at hrun
            obtain ⟨-, rfl, -⟩ := Prod.mk.injEq _ _ _ _ ▸ Prod.mk.inj hrun
            exact absurd rfl (hon rfl).2.2
  | checkMtime | reconcile | openReader | setUdpDivert =>
      simp only [Op.run]
      repeat' split
      all_goals exact h
  | loadPolicy | readMtime | reload | clearDecided | spawnReader | markOn | markOff => exact h

/-- A packet leaves the upcall as it is. -/
theorem handlePacket_upcall {on : Bool} {pkt : Packet} {src : Sockaddr} {r : Handled}
    (hr : handlePacket inp os d pkt src = r) (h : os.Upcall on) : r.os.Upcall on := by
  have hcase := hr ▸ handlePacket_cases inp os d _ _
  cases hcase with
  | unjudged | dns | fast => exact h
  | slow hparse hdns hsrc hopens hlookup hkern hslow =>
      cases hslow with
      | @settled v _ _ hv hpush =>
          obtain ⟨rfl, -⟩ | ⟨path, -, -, rfl, -⟩ := pushSettled_cases hpush
          · exact h
          · refine Os.Module.kernIoctl h fun k hk => ?_
            rcases k.verdictPush_cases _ _ _ v (utf8Bytes path) (inp.memory 0) with heq | heq <;>
              rw [pushVerdict, heq]
            · exact hk
            · exact hk
      | held => exact h
      | @learned pol ls hv hmode hl =>
          exact fun k hk => h k (os.appendPolicy_kmod inp ls ▸ hk)

/-- A step of the main thread leaves the upcall as it is, unless it sets it or
closes the device. -/
theorem MainStep.upcall_flag {on : Bool} (hstep : MainStep inp os d w' o) (h : os.Upcall on)
    (hset : ∀ c, d.pc.ops.head? = some (.setUpcall c) → c = on)
    (hon : on = true → os.Live d.kern ∧ d.pc.ops.head? ≠ some .openBackend ∧ w'.daemon ≠ none) :
    w'.os.Upcall on := by
  cases hstep with
  | moves => exact h
  | exits =>
      cases on with
      | false => exact Os.upcall_closeAll h d
      | true => exact absurd rfl (hon rfl).2.2
  | answer hpc hrx hdrain =>
      obtain ⟨os₁, kern, pol, ls, hr, -, rfl, rfl⟩ := drainAnswer_cases hdrain
      exact fun k hk => h.resolveAll hr k (os₁.appendPolicy_kmod inp ls ▸ hk)
  | upcall hpc hurx hdrain =>
      cases drainUpcall_cases hdrain with
      | resolved hv hr => exact h.resolveAll hr
      | asked => exact h
  | @effect op rest extra next os' d₁ hpc hrun =>
      rw [hpc.ops.1, List.head?_cons] at hset hon
      refine Op.run_upcall hrun h (fun c hc => hset c (congrArg some hc)) fun htrue => ?_
      obtain ⟨hlive, hopen, hgone⟩ := hon htrue
      refine ⟨hlive, fun hop => hopen (congrArg some hop), ?_⟩
      rintro rfl
      exact hgone rfl
  | packet hpc hpkt hr => exact handlePacket_upcall hr h

/-- When the daemon exits, the upcall goes off. -/
theorem MainStep.upcall_of_gone (hstep : MainStep inp os d w' o) (hlive : os.Live d.kern)
    (hgone : w'.daemon = none) : w'.os.Upcall false := by
  cases hstep with
  | exits => exact Os.upcall_closeAll_of_live hlive
  | @effect op rest extra next os' d₁ heff hrun =>
      obtain rfl := Option.map_eq_none_iff.mp hgone
      by_cases hbind : op = .bind
      · subst hbind
        simp only [Op.run] at hrun
        split at hrun <;> simp only [Prod.mk.injEq, reduceCtorEq, false_and, and_false] at hrun
        rw [← hrun.1]
        exact Os.upcall_closeAll_of_live hlive
      · have hstop : d.pc ≠ .stopping [] := by
          rintro hpc
          rw [hpc] at heff
          cases heff
        obtain ⟨d', hd'⟩ := (MainStep.effect heff hrun).survives hstop
          (by rw [heff.ops.1, List.head?_cons]; exact fun h => hbind (Option.some.inj h))
        cases hd'
  | moves | answer | upcall | packet => cases hgone

/-- The daemon's own flag follows its two marks. -/
theorem MainStep.marked (hstep : MainStep inp os d w' o) (hd' : w'.daemon = some d')
    (hon : d.pc.ops.head? ≠ some .markOn) (hoff : d.pc.ops.head? ≠ some .markOff) :
    d'.upcallOn = d.upcallOn := by
  cases hstep with
  | moves =>
      obtain rfl := Option.some.inj hd'
      rfl
  | exits => cases hd'
  | answer hpc hrx hdrain =>
      obtain rfl := Option.some.inj hd'
      obtain ⟨_, _, _, _, -, -, -, rfl⟩ := drainAnswer_cases hdrain
      rfl
  | upcall hpc hurx hdrain =>
      obtain rfl := Option.some.inj hd'
      cases drainUpcall_cases hdrain with
      | resolved hv hr => rfl
      | asked hpath hv hraise =>
          obtain ⟨⟨_, _, rfl⟩, -⟩ := raise_cases hraise
          rfl
  | effect hpc hrun =>
      obtain ⟨d₁, rfl, rfl⟩ := Option.map_eq_some_iff.mp hd'
      rw [hpc.ops.1, List.head?_cons] at hon hoff
      exact (Op.run_keeps hrun).upcallOn (by simpa using hon) (by simpa using hoff)
  | packet hpc hpkt hr =>
      obtain rfl := Option.some.inj hd'
      obtain ⟨_, _, _, _, _, _, heq⟩ := (hr ▸ handlePacket_cases inp os d _ _).frame
      simp only [heq]

/-! ## the settings -/

/-- The mode and the attribution change only when the policy file is read. -/
theorem MainStep.settings (hstep : MainStep inp os d w' o) (hd' : w'.daemon = some d')
    (hload : d.pc.ops.head? ≠ some .loadPolicy) (hreload : d.pc.ops.head? ≠ some .reload) :
    d'.pol.attribution = d.pol.attribution ∧ d'.mode = d.mode := by
  cases hstep with
  | moves =>
      obtain rfl := Option.some.inj hd'
      exact ⟨rfl, rfl⟩
  | exits => cases hd'
  | answer hpc hrx hdrain =>
      obtain rfl := Option.some.inj hd'
      obtain ⟨os₁, kern, pol, ls, -, ha, -, rfl⟩ := drainAnswer_cases hdrain
      exact ⟨(congrArg (Policy.attribution ∘ Prod.fst) ha).symm.trans answered_attribution, rfl⟩
  | upcall hpc hurx hdrain =>
      obtain rfl := Option.some.inj hd'
      cases drainUpcall_cases hdrain with
      | resolved hv hr => exact ⟨rfl, rfl⟩
      | asked hpath hv hraise =>
          obtain ⟨⟨_, _, rfl⟩, -⟩ := raise_cases hraise
          exact ⟨rfl, rfl⟩
  | effect hpc hrun =>
      obtain ⟨d₁, rfl, rfl⟩ := Option.map_eq_some_iff.mp hd'
      rw [hpc.ops.1, List.head?_cons] at hload hreload
      obtain ⟨hpol, hmode⟩ := (Op.run_keeps hrun).pol (by simpa using hload) (by simpa using hreload)
      exact ⟨congrArg Policy.attribution hpol, hmode⟩
  | packet hpc hpkt hr =>
      obtain rfl := Option.some.inj hd'
      have hcase := hr ▸ handlePacket_cases inp os d _ _
      refine ⟨?_, hcase.keeps.1⟩
      obtain ⟨-, hpol, -⟩ | ⟨f, kern, pol, ls, -, -, hl, rfl⟩ := hcase.policy
      · exact congrArg Policy.attribution hpol
      · exact (congrArg (Policy.attribution ∘ Prod.fst) hl).symm.trans record_attribution

end Pfsnitch
