import Pfsnitch.Daemon.Live
import Pfsnitch.Kernel.Queue

/-!
# Pfsnitch.Daemon.Misses

The misses between the module and the daemon.  What every operation of the
module keeps holds of the loaded module in every state (`step_module`), so its
queue is sound throughout (`reachable_sound`).  What the daemon knows of a miss
it has read from the module (`step_knows`).
-/

namespace Pfsnitch

open Lib

variable [Casing]

/-! ## what the module keeps -/

omit [Casing] in
/-- A property of the module that the daemon's main thread keeps. -/
structure KMod.MainKept (P : KMod → Prop) : Prop where
  resolve : ∀ k id v memory, P k → P (k.resolve id v memory)
  verdictPush : ∀ k proto addr fport v path memory,
    P k → P (k.verdictPush proto addr fport v path memory)
  verdictFlush : ∀ k, P k → P k.verdictFlush
  upcallSet : ∀ k on, P k → P (k.upcallSet on)
  devClose : ∀ k, P k → P k.devClose

omit [Casing] in
/-- A property of the module that holds when it is loaded and that its operations keep. -/
structure KMod.Kept (P : KMod → Prop) : Prop extends KMod.MainKept P where
  fresh : P {}
  checkConnect : ∀ k so sa memory now, P k → P (k.checkConnect so sa memory now).2
  read : ∀ k, P k → P k.read.2
  setFailmode : ∀ k m, P k → P { k with failmode := m }

variable {P : KMod → Prop} {inp : Input} {os os' : Os} {d d' : Daemon} {w w' : World} {ev : Event}
  {o : List Output}

omit [Casing] in
theorem Outside.module (hout : Outside w ev w' o) (hP : KMod.Kept P) (h : w.os.Module P) :
    w'.os.Module P := by
  cases hout with
  | loadModule =>
      rintro _ ⟨⟩
      exact hP.fresh
  | unloadModule => rintro _ ⟨⟩
  | crash => exact h.closeAll hP.devClose _
  | readerEnd => exact h.closed hP.devClose
  | @readerRead d i r k k' q _ hd hr hreach hread =>
      rintro _ ⟨⟩
      have hkeep := hP.read k (h k (Os.reach_eq_some.mp hreach).2)
      rwa [hread] at hkeep
  | @hook so sa memory k k' r hk hr =>
      rintro _ ⟨⟩
      have hkeep := hP.checkConnect k so sa memory (w.os.now / 1000) (h k hk)
      rwa [hr] at hkeep
  | setFailmode =>
      intro k' hk'
      obtain ⟨k, hk, rfl⟩ := Option.map_eq_some_iff.mp hk'
      exact hP.setFailmode k _ (h k hk)
  | kernelReset =>
      intro k' hk'
      obtain ⟨k, hk, rfl⟩ := Option.map_eq_some_iff.mp hk'
      exact hP.verdictFlush _ (hP.upcallSet k false (h k hk))
  | startDaemon | signal | promptDone | readerSend | noHook | editPolicy | changeEnv | wait |
    pfAnchor => exact h

theorem MainStep.module (hstep : MainStep inp os d w' o) (hP : KMod.MainKept P) (h : os.Module P) :
    w'.os.Module P := by
  have hresolve : ∀ {v n ids kern kern' os'}, resolveAll inp v n ids os kern = (os', kern') →
      os'.Module P := by
    intro v n ids kern kern' os' hr
    have hkeep : (resolveAll inp v n ids os kern).1.Module P :=
      h.resolveAll fun k hk id _ memory => hP.resolve k id v memory hk
    rwa [hr] at hkeep
  cases hstep with
  | moves => exact h
  | exits => exact h.closeAll hP.devClose d
  | answer hpc hrx hdrain =>
      obtain ⟨os₁, kern, pol, ls, hr, -, rfl, rfl⟩ := drainAnswer_cases hdrain
      exact (hresolve hr).of_kmod_eq (Os.appendPolicy_kmod _ _ _)
  | upcall hpc hurx hdrain =>
      cases drainUpcall_cases hdrain with
      | resolved hv hr => exact hresolve hr
      | asked => exact h
  | @effect op rest extra next os' d' hpc hop =>
      have hfst : (op.run inp os d).1 = os' := by rw [hop]
      exact hfst ▸ h.run hP.verdictFlush hP.upcallSet hP.devClose op
  | packet hpc hpkt hr =>
      have hcase := hr ▸ handlePacket_cases inp os d _ _
      cases hcase with
      | unjudged | dns | fast => exact h
      | slow hparse hdns hsrc hopens hlookup hkern hslow =>
          cases hslow with
          | settled hv hpush =>
              obtain ⟨rfl, -⟩ | ⟨path, hexe, hmode, rfl, -⟩ := pushSettled_cases hpush
              · exact h
              · exact h.kernIoctl fun k hk => hP.verdictPush k _ _ _ _ _ _ hk
          | held => exact h
          | learned => exact h.of_kmod_eq (Os.appendPolicy_kmod _ _ _)

/-- The main thread loads no module. -/
theorem MainStep.loaded (hstep : MainStep inp os d w' o) {k' : KMod} (hk' : w'.os.kmod = some k') :
    ∃ k, os.kmod = some k :=
  hstep.module (P := fun _ => ∃ k, os.kmod = some k)
    ⟨fun _ _ _ _ h => h, fun _ _ _ _ _ _ _ h => h, fun _ h => h, fun _ _ h => h, fun _ h => h⟩
    (fun k hk => ⟨k, hk⟩) k' hk'

/-- The upcall goes on when the main thread sets it through a working handle. -/
theorem MainStep.turned_on (hstep : MainStep inp os d w' o) {k k' : KMod} (hk : os.kmod = some k)
    (hk' : w'.os.kmod = some k') (hon : k'.upcallOn = true) (hoff : k.upcallOn = false) :
    d.pc.ops.head? = some (.setUpcall true) ∧ os.Device d.kern k := by
  have hoff' : os.Upcall false := fun k₁ hk₁ => by
    rwa [Option.some.inj (hk₁.symm.trans hk)]
  have hhead : d.pc.ops.head? = some (.setUpcall true) := by
    by_contra hhead
    have hkeep := hstep.upcall_flag hoff' (fun c hc => by
      cases c with
      | false => rfl
      | true => exact absurd hc hhead) nofun k' hk'
    rw [hkeep] at hon
    cases hon
  refine ⟨hhead, ?_⟩
  obtain ⟨rest, extra, next, os', d₁, -, hrun, rfl⟩ := hstep.effect_of_head hhead
  simp only [Op.run, Prod.mk.injEq] at hrun
  obtain ⟨rfl, -⟩ := hrun
  obtain ⟨k₁, hdev, -, -⟩ | ⟨heq, -⟩ :=
    Os.kernIoctl_cases os d.kern (inp.ioctl 0) fun k => k.upcallSet true
  · rwa [← Option.some.inj (hdev.kmod.symm.trans hk)]
  · rw [heq] at hk'
    rw [← Option.some.inj (hk.symm.trans hk'), hoff] at hon
    cases hon

/-- A step of the main thread is within one load of the module. -/
theorem MainStep.gen (hstep : MainStep inp os d w' o) : w'.os.gen = os.gen := by
  cases hstep with
  | moves => rfl
  | exits => exact (closeAll_frame os d).gen
  | answer hpc hrx hdrain =>
      obtain ⟨os₁, kern, pol, ls, hr, -, rfl, rfl⟩ := drainAnswer_cases hdrain
      exact (Os.appendPolicy_gen _ _ _).trans (Os.sameRest_of_resolveAll hr).gen
  | upcall hpc hurx hdrain =>
      cases drainUpcall_cases hdrain with
      | resolved hv hr => exact (Os.sameRest_of_resolveAll hr).gen
      | asked => rfl
  | @effect op rest extra next os' d' hpc hop =>
      cases d' with
      | some d' =>
          obtain ⟨_, _, rfl⟩ := Op.run_os hop
          rfl
      | none =>
          cases op with
          | bind =>
              simp only [Op.run] at hop
              split at hop <;> obtain ⟨rfl, -⟩ := Prod.mk.inj hop
              · rfl
              · exact (closeAll_frame os d).gen
          | checkMtime | reconcile | openReader =>
              simp only [Op.run] at hop
              repeat' split at hop
              all_goals simp at hop
          | _ => simp [Op.run] at hop
  | packet hpc hpkt hr =>
      have hcase := hr ▸ handlePacket_cases inp os d _ _
      cases hcase with
      | unjudged | dns | fast => rfl
      | slow hparse hdns hsrc hopens hlookup hkern hslow =>
          cases hslow with
          | settled hv hpush =>
              obtain ⟨rfl, -⟩ | ⟨path, hexe, hmode, rfl, -⟩ := pushSettled_cases hpush
              · rfl
              · exact (Os.sameRest_kernIoctl _ _ _ _).gen
          | held => rfl
          | learned => exact Os.appendPolicy_gen _ _ _

/-- What the module keeps, the system keeps of the loaded module. -/
theorem step_module (h : w.step ev = some (w', o)) (hP : KMod.Kept P) (hinv : w.os.Module P) :
    w'.os.Module P := by
  obtain ⟨inp, d, rfl, hd, hmain⟩ | hout := step_cases h
  · exact hmain.module hP.toMainKept hinv
  · exact hout.module hP hinv

theorem reachable_module {ok : World → Event → Prop} (hw : Reachable ok w) (hP : KMod.Kept P) :
    w.os.Module P := by
  obtain ⟨w₀, hinit, hrun⟩ := hw
  have hfirst : w₀.os.Module P := fun k hk => by
    rw [hinit.1] at hk
    cases hk
  exact hrun.invariant hfirst fun _ _ _ _ hinv _ hstep => step_module hstep hP hinv

omit [Casing] in
theorem KMod.kept_sound : KMod.Kept KMod.Sound where
  fresh := sound_fresh rfl rfl
  checkConnect _ so sa memory now h := h.checkConnect so sa memory now
  read _ h := h.read
  resolve _ id v memory h := h.resolve id v memory
  verdictPush _ proto addr fport v path memory h := h.verdictPush proto addr fport v path memory
  verdictFlush _ h := h.congr rfl rfl rfl rfl
  upcallSet _ _ h := h.congr rfl rfl rfl rfl
  devClose _ h := h.congr rfl rfl rfl rfl
  setFailmode _ _ h := h.congr rfl rfl rfl rfl

omit [Casing] in
/-- Every request is under a path. -/
theorem KMod.kept_named : KMod.Kept fun k => ∀ r ∈ k.reqs, r.key.path ≠ [] where
  fresh := nofun
  checkConnect k so sa memory now h := by
    have hstep := k.checkConnect_step so sa memory now
    generalize k.checkConnect so sa memory now = res at hstep ⊢
    cases hstep with
    | refused => exact h
    | swept => exact fun r hr => h r ((k.reqGc_sublist now).subset hr)
    | queued hkey hfull hpath hinfo =>
        intro r hr
        obtain hr | hr := List.mem_append.mp hr
        · exact h r ((k.reqGc_sublist now).subset hr)
        · rw [List.mem_singleton.mp hr]
          exact hinfo.trans_ne hpath
  read k h := by
    obtain heq | ⟨r, -, -, heq⟩ := k.read_step <;> rw [heq]
    · exact h
    · intro s hs
      obtain ⟨s', hs', rfl⟩ := List.mem_map.mp hs
      split <;> exact h s' hs'
  resolve k id v memory h := by
    obtain ⟨-, heq⟩ | ⟨r, -, -, heq⟩ := k.resolve_step id v memory <;> rw [heq]
    · exact h
    · exact fun s hs => h s (List.mem_of_mem_eraseP hs)
  verdictPush k proto addr fport v path memory h := by
    obtain heq | heq := k.verdictPush_cases proto addr fport v path memory <;> rw [heq] <;> exact h
  verdictFlush _ h := h
  upcallSet _ _ h := h
  devClose _ h := h
  setFailmode _ _ h := h

theorem reachable_sound {ok : World → Event → Prop} (hw : Reachable ok w) :
    w.os.Module KMod.Sound := reachable_module hw KMod.kept_sound

/-! ## what the daemon knows of misses -/

omit [Casing] in
/-- A reader thread holds the event, or it is in the channel. -/
def Daemon.InTransit (d : Daemon) (ev : KernEvent) : Prop :=
  (∃ r ∈ d.readers, r.holding = some ev) ∨ ev ∈ d.urx

/-- The event waits for an answer. -/
def Daemon.Waits (d : Daemon) (ev : KernEvent) : Prop := ∃ key, ∃ wtr ∈ d.waiters key, wtr.ev = ev

omit [Casing] in
/-- Idle readers and an empty channel carry nothing. -/
theorem Daemon.not_inTransit {d : Daemon} {ev : KernEvent}
    (hreaders : ∀ r ∈ d.readers, r.holding.isNone = true) (hurx : d.urx = []) :
    ¬ d.InTransit ev := by
  rintro (⟨r, hr, hev⟩ | hmem)
  · have hidle := hreaders r hr
    rw [hev] at hidle
    cases hidle
  · rw [hurx] at hmem
    cases hmem

omit [Casing] in
theorem Daemon.not_waits {d : Daemon} {ev : KernEvent} (h : d.pendingUpcalls.entries = []) :
    ¬ d.Waits ev := by
  rintro ⟨key, wtr, hwtr, -⟩
  have hempty : d.pendingUpcalls = ∅ := AList.ext h
  simp [Daemon.waiters, hempty] at hwtr

/-- The daemon knows the event, and so its id. -/
def Daemon.Knows (d : Daemon) (ev : KernEvent) : Prop := d.InTransit ev ∨ d.Waits ev

omit [Casing] in
theorem Daemon.waits_erase {key : AskKey} {ev : KernEvent}
    (h : d'.pendingUpcalls = d.pendingUpcalls.erase key) :
    d'.Waits ev ↔ ∃ key', key' ≠ key ∧ ∃ wtr ∈ d.waiters key', wtr.ev = ev := by
  have hwaiters : ∀ key', d'.waiters key' = if key' = key then [] else d.waiters key' := by
    intro key'
    unfold Daemon.waiters
    rw [h]
    by_cases hkey : key' = key
    · subst hkey
      simp
    · simp [hkey]
  unfold Waits
  constructor
  · rintro ⟨key', wtr, hmem, hev⟩
    rw [hwaiters] at hmem
    split at hmem
    · cases hmem
    · rename_i hkey
      exact ⟨key', hkey, wtr, hmem, hev⟩
  · rintro ⟨key', hkey, wtr, hmem, hev⟩
    refine ⟨key', wtr, ?_, hev⟩
    rwa [hwaiters, if_neg hkey]

omit [Casing] in
theorem Daemon.waiters_addWaiter (key key' : AskKey) (wtr : Waiter) :
    (addWaiter d key wtr).waiters key' =
      if key' = key then d.waiters key ++ [wtr] else d.waiters key' := by
  unfold addWaiter Daemon.waiters
  by_cases hkey : key' = key
  · subst hkey
    simp
  · simp [hkey]

omit [Casing] in
theorem Daemon.waits_addWaiter {key : AskKey} {wtr : Waiter} {ev : KernEvent} :
    (addWaiter d key wtr).Waits ev ↔ d.Waits ev ∨ ev = wtr.ev := by
  constructor
  · rintro ⟨key', wtr', hmem, rfl⟩
    rw [Daemon.waiters_addWaiter] at hmem
    split at hmem
    · obtain hmem | hmem := List.mem_append.mp hmem
      · exact .inl ⟨key, wtr', hmem, rfl⟩
      · exact .inr (congrArg Waiter.ev (List.mem_singleton.mp hmem))
    · exact .inl ⟨key', wtr', hmem, rfl⟩
  · rintro (⟨key', wtr', hmem, rfl⟩ | rfl)
    · refine ⟨key', wtr', ?_, rfl⟩
      rw [Daemon.waiters_addWaiter]
      split
      · rename_i hkey
        exact List.mem_append_left _ (hkey ▸ hmem)
      · exact hmem
    · refine ⟨key, wtr, ?_, rfl⟩
      rw [Daemon.waiters_addWaiter, if_pos rfl]
      exact List.mem_append_right _ (List.mem_singleton_self _)

omit [Casing] in
/-- What the daemon knows is in its readers, its channel and its waiters. -/
theorem Daemon.Knows.congr {ev : KernEvent} (h : d.Knows ev)
    (hreaders : d'.readers = d.readers) (hurx : d'.urx = d.urx)
    (hwaiters : d'.pendingUpcalls = d.pendingUpcalls) : d'.Knows ev := by
  unfold Knows InTransit Waits Daemon.waiters
  rw [hreaders, hurx, hwaiters]
  exact h

/-- The events whose ids the main thread is about to resolve, or to decide on. -/
def Daemon.resolving (d : Daemon) : List KernEvent :=
  match d.pc, d.rx, d.urx with
  | .answers, (_, p) :: _, _ => (d.waiters p.key).map (·.ev)
  | .upcalls, _, ev :: _ => [ev]
  | _, _, _ => []

theorem Daemon.knows_of_resolving (d : Daemon) {e : KernEvent} (h : e ∈ d.resolving) : d.Knows e := by
  unfold resolving at h
  split at h
  · obtain ⟨wtr, hw, rfl⟩ := List.mem_map.mp h
    exact .inr ⟨_, wtr, hw, rfl⟩
  · rename_i hurx
    obtain rfl := List.mem_singleton.mp h
    exact .inl (.inr (hurx ▸ List.mem_cons_self))
  · cases h

/-- How a step of the main thread forgets an event: it resolves the event's id, or
drops the waiters. -/
inductive Forgets (inp : Input) (os : Os) (d : Daemon) (w' : World) (ev : KernEvent) : Prop
  | resolved {v : KVerdict} {ids : List Nat} {os₁ : Os} {kern : Option Handle}
      (hev : ev ∈ d.resolving) (hid : ev.id ∈ ids)
      (hr : resolveAll inp v 0 ids os d.kern = (os₁, kern)) (hkmod : w'.os.kmod = os₁.kmod)
  | dropped (hpc : d.pc.ops.head? = some .markOff) (hw : d.Waits ev)

/-- An event starts to wait when it is drained and the verdict is to ask. -/
theorem MainStep.waits (hstep : MainStep inp os d w' o) (hd' : w'.daemon = some d')
    {e : KernEvent} (h : d'.Waits e) :
    d.Waits e ∨ d.pc = .upcalls ∧ (∃ urx, d.urx = e :: urx) ∧ eventVerdict os d e = .ask := by
  cases hstep with
  | moves =>
      obtain rfl := Option.some.inj hd'
      exact .inl h
  | exits => cases hd'
  | answer hpc hrx hdrain =>
      obtain rfl := Option.some.inj hd'
      obtain ⟨_, _, _, _, -, -, -, rfl⟩ := drainAnswer_cases hdrain
      obtain ⟨key', -, hwtr⟩ := (Daemon.waits_erase (d := d) rfl).mp h
      exact .inl ⟨key', hwtr⟩
  | upcall hpc hurx hdrain =>
      obtain rfl := Option.some.inj hd'
      cases drainUpcall_cases hdrain with
      | resolved hv hr => exact .inl h
      | asked hpath hv hraise =>
          obtain ⟨⟨_, _, rfl⟩, -⟩ := raise_cases hraise
          obtain h | rfl := Daemon.waits_addWaiter.mp h
          · exact .inl h
          · exact .inr ⟨hpc, ⟨_, hurx⟩, hv⟩
  | @effect op _ _ _ _ _ hpc hrun =>
      obtain ⟨d₁, rfl, rfl⟩ := Option.map_eq_some_iff.mp hd'
      left
      by_cases hop : op = .markOff
      · subst hop
        simp only [Op.run, Prod.mk.injEq, Option.some.injEq] at hrun
        obtain ⟨-, rfl, -⟩ := hrun
        obtain ⟨key, wtr, hmem, -⟩ := h
        simp [Daemon.waiters] at hmem
      · unfold Daemon.Waits Daemon.waiters at h ⊢
        rwa [← (Op.run_keeps hrun).pendingUpcalls hop]
  | packet hpc hpkt hr =>
      obtain rfl := Option.some.inj hd'
      obtain ⟨_, _, _, _, _, _, hframe⟩ := (hr ▸ handlePacket_cases inp os d _ _).frame
      unfold Daemon.Waits Daemon.waiters at h ⊢
      rw [hframe] at h
      exact .inl h

/-- Events come to the readers and their channel from the module only. -/
theorem MainStep.carries (hstep : MainStep inp os d w' o) (hd' : w'.daemon = some d')
    {ev : KernEvent} (h : d'.InTransit ev) : d.InTransit ev := by
  cases hstep with
  | moves =>
      obtain rfl := Option.some.inj hd'
      exact h
  | exits => cases hd'
  | answer hpc hrx hdrain =>
      obtain rfl := Option.some.inj hd'
      obtain ⟨_, _, _, _, -, -, -, rfl⟩ := drainAnswer_cases hdrain
      exact h
  | @upcall ev₀ urx _ _ _ hpc hurx hdrain =>
      obtain rfl := Option.some.inj hd'
      have hmem : ev ∈ urx → ev ∈ d.urx := fun h => hurx ▸ List.mem_cons_of_mem _ h
      cases drainUpcall_cases hdrain with
      | resolved hv hr => exact h.imp_right hmem
      | asked hpath hv hraise =>
          obtain ⟨⟨_, _, rfl⟩, -⟩ := raise_cases hraise
          exact h.imp_right hmem
  | effect hpc hrun =>
      obtain ⟨d₁, rfl, rfl⟩ := Option.map_eq_some_iff.mp hd'
      exact h.imp (Op.run_holding hrun ev).mp fun h => (Op.run_keeps hrun).urx ▸ h
  | packet hpc hpkt hr =>
      obtain rfl := Option.some.inj hd'
      obtain ⟨_, _, _, _, _, _, hframe⟩ := (hr ▸ handlePacket_cases inp os d _ _).frame
      rwa [hframe] at h

/-- The main thread learns of no miss by itself. -/
theorem MainStep.knows (hstep : MainStep inp os d w' o) (hd' : w'.daemon = some d')
    {ev : KernEvent} (h : d'.Knows ev) : d.Knows ev := by
  obtain h | h := h
  · exact .inl (hstep.carries hd' h)
  · obtain h | ⟨-, ⟨urx, hurx⟩, -⟩ := hstep.waits hd' h
    · exact .inr h
    · exact .inl (.inr (hurx ▸ List.mem_cons_self))

/-- What the main thread knows of a miss it keeps, unless it drains or drops it. -/
theorem MainStep.keeps_known (hstep : MainStep inp os d w' o) (hd' : w'.daemon = some d')
    {ev : KernEvent} (h : d.Knows ev) : d'.Knows ev ∨ Forgets inp os d w' ev := by
  cases hstep with
  | moves =>
      obtain rfl := Option.some.inj hd'
      exact .inl h
  | exits => cases hd'
  | @answer ans p rx _ _ hpc hrx hdrain =>
      obtain rfl := Option.some.inj hd'
      obtain ⟨_, _, _, _, hr, -, rfl, rfl⟩ := drainAnswer_cases hdrain
      obtain h | ⟨key, wtr, hmem, hev⟩ := h
      · exact .inl (.inl h)
      · by_cases hkey : key = p.key
        · subst hkey
          refine .inr (.resolved ?_ (hev ▸ List.mem_map_of_mem hmem) hr (Os.appendPolicy_kmod _ _ _))
          simp only [Daemon.resolving, hpc, hrx]
          exact hev ▸ List.mem_map_of_mem hmem
        · exact .inl (.inr ((Daemon.waits_erase (d := d) rfl).mpr ⟨key, hkey, wtr, hmem, hev⟩))
  | @upcall ev₀ urx _ _ _ hpc hurx hdrain =>
      obtain rfl := Option.some.inj hd'
      have hmem : ev ≠ ev₀ → ev ∈ d.urx → ev ∈ urx := by
        rw [hurx]
        exact fun hne h => (List.mem_cons.mp h).resolve_left hne
      cases drainUpcall_cases hdrain with
      | resolved hv hr =>
          by_cases hev : ev = ev₀
          · subst hev
            refine .inr (.resolved ?_ (List.mem_singleton_self _) hr rfl)
            simp [Daemon.resolving, hpc, hurx]
          · exact .inl (h.imp (Or.imp_right (hmem hev)) id)
      | asked hpath hv hraise =>
          obtain ⟨⟨_, _, rfl⟩, -⟩ := raise_cases hraise
          left
          by_cases hev : ev = ev₀
          · exact .inr (Daemon.waits_addWaiter.mpr (.inr hev))
          · exact h.imp (Or.imp_right (hmem hev)) fun h => Daemon.waits_addWaiter.mpr (.inl h)
  | @effect op rest extra next _ _ hpc hrun =>
      obtain ⟨d₁, rfl, rfl⟩ := Option.map_eq_some_iff.mp hd'
      have hkeeps := Op.run_keeps hrun
      obtain (h | h) | h := h
      · exact .inl (.inl (.inl ((Op.run_holding hrun ev).mpr h)))
      · exact .inl (.inl (.inr (hkeeps.urx ▸ h)))
      · by_cases hop : op = .markOff
        · refine .inr (.dropped ?_ h)
          rw [hpc.ops.1, hop, List.head?_cons]
        · left; right
          unfold Daemon.Waits Daemon.waiters at h ⊢
          change ∃ key, ∃ wtr ∈ (d₁.pendingUpcalls.lookup key).getD [], wtr.ev = ev
          rwa [hkeeps.pendingUpcalls hop]
  | packet hpc hpkt hr =>
      obtain rfl := Option.some.inj hd'
      obtain ⟨_, _, _, _, _, _, hframe⟩ := (hr ▸ handlePacket_cases inp os d _ _).frame
      exact .inl (h.congr (by rw [hframe]) (by rw [hframe]) (by rw [hframe]))

omit [Casing] in
theorem holding_of_mem_set {l : List Reader} {i : Nat} {r : Reader} {ev : KernEvent}
    (h : ∃ s ∈ l.set i r, s.holding = some ev) :
    r.holding = some ev ∨ ∃ s ∈ l, s.holding = some ev := by
  obtain ⟨s, hs, hev⟩ := h
  obtain hs | rfl := List.mem_or_eq_of_mem_set hs
  · exact .inr ⟨s, hs, hev⟩
  · exact .inl hev

omit [Casing] in
/-- A reader changes, and the others keep what they hold. -/
theorem holding_of_mem {l : List Reader} {i : Nat} {r : Reader} (hr : l[i]? = some r)
    (r' : Reader) {ev : KernEvent} (h : ∃ s ∈ l, s.holding = some ev) :
    r.holding = some ev ∨ (∃ s ∈ l.set i r', s.holding = some ev) ∧
      ∃ s ∈ l.eraseIdx i, s.holding = some ev := by
  obtain ⟨s, hs, hev⟩ := h
  obtain ⟨j, hj, rfl⟩ := List.getElem_of_mem hs
  by_cases hij : j = i
  · subst hij
    rw [List.getElem?_eq_getElem hj] at hr
    exact .inl (Option.some.inj hr ▸ hev)
  · right
    constructor
    · refine ⟨l[j], ?_, hev⟩
      refine List.mem_iff_getElem?.mpr ⟨j, ?_⟩
      rw [List.getElem?_set_ne (Ne.symm hij), List.getElem?_eq_getElem hj]
    · exact ⟨l[j], List.mem_eraseIdx_iff_getElem.mpr ⟨j, hj, hij, rfl⟩, hev⟩

omit [Casing] in
/-- Around the main thread, the daemon learns of a miss by reading it. -/
theorem Outside.knows (hout : Outside w ev w' o) (hd' : w'.daemon = some d') {e : KernEvent}
    (h : d'.Knows e) : (∃ d, w.daemon = some d ∧ d.Knows e) ∨
      ∃ k q, w.os.kmod = some k ∧ w'.os.kmod = some k.read.2 ∧ k.read.1 = .event q ∧
        q.event = e := by
  cases hout with
  | startDaemon =>
      obtain rfl := Option.some.inj hd'
      obtain (⟨r, hr, -⟩ | hurx) | ⟨key, wtr, hmem, -⟩ := h
      · cases hr
      · cases hurx
      · simp [Daemon.waiters, Daemon.new] at hmem
  | crash => cases hd'
  | readerEnd hd hr =>
      obtain rfl := Option.some.inj hd'
      refine .inl ⟨_, hd, h.imp (Or.imp_left ?_) id⟩
      rintro ⟨s, hs, hev⟩
      exact ⟨s, List.mem_of_mem_eraseIdx hs, hev⟩
  | @readerRead d i r k k' q _ hd hr hreach hread =>
      obtain rfl := Option.some.inj hd'
      obtain (h | h) | h := h
      · obtain hq | h := holding_of_mem_set h
        · exact .inr ⟨k, q, (Os.reach_eq_some.mp hreach).2, by rw [hread], by rw [hread],
            Option.some.inj hq⟩
        · exact .inl ⟨d, hd, .inl (.inl h)⟩
      · exact .inl ⟨d, hd, .inl (.inr h)⟩
      · exact .inl ⟨d, hd, .inr h⟩
  | @readerSend d i r ev hd hr hev =>
      obtain rfl := Option.some.inj hd'
      refine .inl ⟨d, hd, ?_⟩
      obtain (h | h) | h := h
      · obtain hno | h := holding_of_mem_set h
        · cases hno
        · exact .inl (.inl h)
      · obtain h | h := List.mem_append.mp h
        · exact .inl (.inr h)
        · rw [List.mem_singleton.mp h]
          exact .inl (.inl ⟨r, List.mem_of_getElem? hr, hev⟩)
      · exact .inr h
  | signal hd | promptDone hd =>
      obtain rfl := Option.some.inj hd'
      exact .inl ⟨_, hd, h⟩
  | loadModule | unloadModule | noHook | hook | editPolicy | changeEnv | wait | pfAnchor |
    setFailmode | kernelReset => exact .inl ⟨d', hd', h⟩

omit [Casing] in
/-- Nothing around the main thread starts to wait. -/
theorem Outside.waits (hout : Outside w ev w' o) (hd' : w'.daemon = some d') {e : KernEvent}
    (h : d'.Waits e) : ∃ d, w.daemon = some d ∧ d.Waits e := by
  cases hout with
  | startDaemon =>
      obtain rfl := Option.some.inj hd'
      obtain ⟨key, wtr, hmem, -⟩ := h
      simp [Daemon.waiters, Daemon.new] at hmem
  | crash => cases hd'
  | readerEnd hd | readerRead hd | readerSend hd | signal hd | promptDone hd =>
      obtain rfl := Option.some.inj hd'
      exact ⟨_, hd, h⟩
  | loadModule | unloadModule | noHook | hook | editPolicy | changeEnv | wait | pfAnchor |
    setFailmode | kernelReset => exact ⟨d', hd', h⟩

omit [Casing] in
/-- Around the main thread, the daemon forgets nothing. -/
theorem Outside.keeps_known (hout : Outside w ev w' o) (hd : w.daemon = some d)
    (hd' : w'.daemon = some d') {e : KernEvent} (h : d.Knows e) : d'.Knows e := by
  cases hout with
  | startDaemon hnone =>
      rw [hnone] at hd
      cases hd
  | crash => cases hd'
  | readerEnd hd₁ hr hidle =>
      obtain rfl := Option.some.inj (hd₁.symm.trans hd)
      obtain rfl := Option.some.inj hd'
      refine h.imp (Or.imp_left fun h => ?_) id
      obtain hev | ⟨-, h⟩ := holding_of_mem hr ⟨0, false, none⟩ h
      · rw [hidle] at hev
        cases hev
      · exact h
  | readerRead hd₁ hr hreach hread hidle =>
      obtain rfl := Option.some.inj (hd₁.symm.trans hd)
      obtain rfl := Option.some.inj hd'
      refine h.imp (Or.imp_left fun h => ?_) id
      obtain hev | ⟨h, -⟩ := holding_of_mem hr _ h
      · rw [hidle] at hev
        cases hev
      · exact h
  | readerSend hd₁ hr hev =>
      obtain rfl := Option.some.inj (hd₁.symm.trans hd)
      obtain rfl := Option.some.inj hd'
      obtain (h | h) | h := h
      · obtain he | ⟨h, -⟩ := holding_of_mem hr _ h
        · rw [hev] at he
          exact .inl (.inr (List.mem_append_right _ (by simp [Option.some.inj he])))
        · exact .inl (.inl h)
      · exact .inl (.inr (List.mem_append_left _ h))
      · exact .inr h
  | signal hd₁ | promptDone hd₁ =>
      obtain rfl := Option.some.inj (hd₁.symm.trans hd)
      obtain rfl := Option.some.inj hd'
      exact h
  | loadModule | unloadModule | noHook | hook | editPolicy | changeEnv | wait | pfAnchor |
    setFailmode | kernelReset =>
      obtain rfl := Option.some.inj (hd'.symm.trans hd)
      exact h

/-- What the daemon knows of a miss it knew, or it has just read it. -/
theorem step_knows (h : w.step ev = some (w', o)) (hd' : w'.daemon = some d') {e : KernEvent}
    (he : d'.Knows e) : (∃ d, w.daemon = some d ∧ d.Knows e) ∨
      ∃ k q, w.os.kmod = some k ∧ w'.os.kmod = some k.read.2 ∧ k.read.1 = .event q ∧
        q.event = e := by
  obtain ⟨inp, d, rfl, hd, hmain⟩ | hout := step_cases h
  · exact .inl ⟨d, hd, hmain.knows hd' he⟩
  · exact hout.knows hd' he

/-- Every event the daemon knows names a binary. -/
theorem reachable_named {ok : World → Event → Prop} (hw : Reachable ok w)
    (hd : w.daemon = some d) {e : KernEvent} (he : d.Knows e) : e.path ≠ [] := by
  obtain ⟨w₀, hinit, hrun⟩ := hw
  refine (hrun.invariant (P := fun w => (w.os.Module fun k => ∀ r ∈ k.reqs, r.key.path ≠ []) ∧
      ∀ d, w.daemon = some d → ∀ e, d.Knows e → e.path ≠ []) ⟨?_, hinit.no_daemon⟩ ?_).2 d hd e he
  · intro k hk
    rw [hinit.1] at hk
    cases hk
  · rintro w w' ev o ⟨hreqs, hnamed⟩ - hstep
    refine ⟨step_module hstep KMod.kept_named hreqs, fun d' hd' e he => ?_⟩
    obtain ⟨d, hd, he⟩ | ⟨k, q, hk, -, hread, rfl⟩ := step_knows hstep hd' he
    · exact hnamed d hd e he
    · obtain ⟨-, hq, -⟩ := KMod.read_event (Prod.ext hread rfl : k.read = (.event q, k.read.2))
      exact utf8Lossy_ne_nil (hreqs k hk q (List.mem_of_find?_eq_some hq))

end Pfsnitch
