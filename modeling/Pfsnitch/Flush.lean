import Pfsnitch.Daemon.Live

/-!
# Pfsnitch.Flush

When the tick that reloads the policy leaves no old verdict in the kernel.

The closing flush goes through the handle the reload ends up with.  A policy
that names the kernel backend ends up with one, as long as the device does not
fail; a policy that does not has dropped it before the flush
(`reload_keeps_entry`).  `Ahead` follows the flush through the tick, and `Kept`
says that what is cached can be reached by the next flush.
-/

namespace Pfsnitch

open Lib

variable [Casing]

/-- The steps after which a reload leaves the cache with the property `P`: the
device does not fail where the tick needs it, and a reload reads a policy that
names the kernel backend, or finds the property already. -/
def FlushSafe (P : VCache → Prop) (w : World) : Event → Prop
  | .daemon inp => (∀ n, inp.ioctl n ≠ .fail true) ∧ ∀ d, w.daemon = some d →
      (d.pc.ops.head? = some .openBackend → inp.openOk = true) ∧
      (d.pc.ops.head? = some .flushVerdicts → inp.ioctl 0 = .ok) ∧
      (d.pc.ops.head? = some .reload →
        (Policy.loadFile w.os.policyData).attributionMode = .kernel ∨ w.os.Cache P)
  | _ => True

/-- While the policy names the kernel backend, what is cached is behind the
handle, or the backend is about to be opened. -/
def Kept (P : VCache → Prop) (w : World) : Prop :=
  ∀ d, w.daemon = some d →
    (w.os.Cache P ∨ w.os.Live d.kern) ∨ d.pol.attributionMode ≠ .kernel ∨ .openBackend ∈ d.pc.ops

/-- After a reload the flush has been, or it is ahead with a handle that works,
or the backend is opened before it. -/
def Ahead (P : VCache → Prop) (w : World) : Prop :=
  ∀ d ops, w.daemon = some d → d.pc = .ticking true ops → w.os.Cache P ∨
    d.pol.attributionMode = .kernel ∧
      (.openBackend ∈ ops ∨ w.os.Live d.kern ∧ .flushVerdicts ∈ ops)

variable {P : VCache → Prop} {w w' : World} {ev : Event} {o : List Output} {inp : Input} {os : Os}
  {d d' : Daemon}

/-! ## one step of the main thread -/

/-- A step that inserts through a handle that works leaves one that works. -/
theorem MainStep.cache_or_live (hstep : MainStep inp os d w' o)
    (hok : ∀ n, inp.ioctl n ≠ .fail true) (hop : d.pc.ops.head? ≠ some .openBackend)
    (hd' : w'.daemon = some d') (hempty : P Table.empty) (h : os.Cache P ∨ os.Live d.kern) :
    w'.os.Cache P ∨ w'.os.Live d'.kern := by
  by_cases hlive : os.Live d.kern
  · exact .inr (hstep.live hok hop hd' hlive)
  · exact .inl (hstep.cache (h.resolve_right hlive) hempty fun _ _ hins =>
      absurd hins.live hlive)

/-- Between effects nothing is inserted. -/
theorem MainStep.cache_of_ops (hstep : MainStep inp os d w' o) (hops : d.pc.ops ≠ [])
    (hempty : P Table.empty) (h : os.Cache P) : w'.os.Cache P :=
  hstep.cache h hempty fun _ _ hins => absurd hins.ops hops

omit [Casing] in
/-- Opening the backend for a policy that names the kernel gives a handle that
works, unless there is no module. -/
theorem live_kernBackend (os : Os) (hopen : inp.openOk = true) (hattr : d.pol.attributionMode = .kernel) :
    ((kernBackend inp os d).1.Live (kernBackend inp os d).2.1.kern ∧
        (kernBackend inp os d).2.2 = [.flushVerdicts]) ∨
      (kernBackend inp os d).1.kmod = none := by
  have hfresh : (kernBackend inp os d).2.1.kern = openDevice os true := by
    simp [kernBackend, hattr, hopen]
  have hsame : (kernBackend inp os d).1.gen = os.gen ∧
      (kernBackend inp os d).1.kmod.isSome = os.kmod.isSome := by
    simp only [kernBackend]
    split <;> simp
  rw [hfresh]
  obtain hlive | hnone := os.live_openDevice
  · refine .inl ⟨hlive.congr hsame.1 hsame.2, ?_⟩
    obtain ⟨h, hh, -⟩ := Os.live_iff.mp hlive
    simp [kernBackend, hattr, hopen, hh]
  · right
    simpa [hnone] using hsame.2

omit [Casing] in
theorem Os.Cache.of_no_module (h : os.kmod = none) : os.Cache P := by
  intro k hk
  simp [h] at hk

/-- A step keeps what is cached within reach. -/
theorem MainStep.kept (hstep : MainStep inp w.os d w' o) (hd : w.daemon = some d)
    (hsafe : FlushSafe P w (.daemon inp)) (hshape : Shaped w) (hempty : P Table.empty)
    (hinv : Kept P w) : Kept P w' := by
  obtain ⟨hok, hsafe⟩ := hsafe
  obtain ⟨hopen, -, -⟩ := hsafe d hd
  intro d' hd'
  by_cases hhead : d.pc.ops.head? = some .openBackend
  · obtain ⟨rest, extra, next, os', d₁, heff, hrun, rfl⟩ := hstep.effect_of_head hhead
    obtain ⟨d₂, rfl, rfl⟩ := Option.map_eq_some_iff.mp hd'
    simp only [Op.run, Prod.mk.injEq, Option.some.injEq] at hrun
    obtain ⟨rfl, rfl, -⟩ := hrun
    by_cases hattr : d.pol.attributionMode = .kernel
    · obtain ⟨hlive, -⟩ | hnone := live_kernBackend w.os (hopen hhead) hattr
      · exact .inl (.inr hlive)
      · exact .inl (.inl (.of_no_module hnone))
    · exact .inr (.inl hattr)
  · obtain hreach | hattr | hmem := hinv d hd
    · exact .inl (hstep.cache_or_live hok hhead hd' hempty hreach)
    · by_cases hload : d.pc.ops.head? = some .loadPolicy
      · -- at start-up the backend is opened right after
        obtain ⟨rest, extra, next, os', d₁, heff, hrun, rfl⟩ := hstep.effect_of_head hload
        obtain ⟨d₂, rfl, rfl⟩ := Option.map_eq_some_iff.mp hd'
        have hrest : ∀ ops ∈ allShapes, ops.head? = some .loadPolicy →
            .openBackend ∈ ops.tail := by decide
        have hopens := hrest _ (d.pc.shapes_subset (hshape d hd)) hload
        rw [heff.ops.1, List.tail_cons] at hopens
        right; right
        rw [heff.ops.2]
        exact List.mem_append_right _ hopens
      · by_cases hreload : d.pc.ops.head? = some .reload
        · obtain ⟨rest, extra, next, os', d₁, heff, hrun, rfl⟩ := hstep.effect_of_head hreload
          obtain ⟨d₂, rfl, rfl⟩ := Option.map_eq_some_iff.mp hd'
          simp only [Op.run, reloadPolicy, Prod.mk.injEq, Option.some.injEq] at hrun
          obtain ⟨-, rfl, rfl⟩ := hrun
          by_cases hsame : (d.loadFrom w.os).pol.attributionMode = d.pol.attributionMode
          · exact .inr (.inl (hsame ▸ hattr))
          · right; right
            simp [heff.ops.2, hsame]
        · obtain ⟨hsettings, -⟩ := hstep.settings hd' hload hreload
          exact .inr (.inl (by simpa [Policy.attributionMode, hsettings] using hattr))
    · exact .inr (.inr ((hstep.pending hd' hmem).resolve_left hhead))

/-- After a reload, a step leads on to the flush. -/
theorem MainStep.ahead (hstep : MainStep inp w.os d w' o) (hd : w.daemon = some d)
    (hsafe : FlushSafe P w (.daemon inp)) (hshape : Shaped w) (hempty : P Table.empty)
    (hkept : Kept P w) (hinv : Ahead P w) : Ahead P w' := by
  obtain ⟨hok, hsafe⟩ := hsafe
  obtain ⟨hopen, hflush, hreload⟩ := hsafe d hd
  intro d' ops' hd' hpc'
  obtain ⟨reloaded, op, rest, extra, d₁, hpc, hreloaded, hrun, rfl, rfl⟩ :=
    hstep.of_reloaded hd' hpc'
  have hops : d.pc.ops = op :: rest := by rw [hpc]; rfl
  rw [hops, List.head?_cons] at hopen hflush hreload
  have hcache : w.os.Cache P → w'.os.Cache P :=
    hstep.cache_of_ops (by rw [hops]; exact List.cons_ne_nil _ _) hempty
  by_cases hop : op = .reload
  · -- the new policy names the kernel, and so the flush has a handle
    subst hop
    obtain hattr | hclean := hreload rfl
    · simp only [Op.run, reloadPolicy, Prod.mk.injEq, Option.some.injEq] at hrun
      obtain ⟨hos, rfl, rfl⟩ := hrun
      by_cases hsame : (d.loadFrom w.os).pol.attributionMode = d.pol.attributionMode
      · obtain (h | h) | h | h := hkept d hd
        · exact .inl (hcache h)
        · exact .inr ⟨hattr, .inr ⟨hos ▸ h, by simp⟩⟩
        · exact absurd (hsame.symm.trans hattr) h
        · rw [hops, List.mem_cons] at h
          exact .inr ⟨hattr, .inl (List.mem_append_right _ (h.resolve_left (by simp)))⟩
      · exact .inr ⟨hattr, .inl (by simp [hsame])⟩
    · exact .inl (hcache hclean)
  · obtain rfl := hreloaded.resolve_right hop
    have hload : op ≠ .loadPolicy := not_loadPolicy_of_ticking hpc (hshape d hd) hops
    obtain ⟨hsettings, -⟩ := hstep.settings hd' (by simpa [hops] using hload)
      (by simpa [hops] using hop)
    have hattr' : d.pol.attributionMode = .kernel → d₁.pol.attributionMode = .kernel := by
      intro h
      simpa [Policy.attributionMode] using
        (congrArg (fun a => a.getD .procstat) hsettings).trans h
    obtain h | ⟨hattr, hahead⟩ := hinv d _ hd hpc
    · exact .inl (hcache h)
    · by_cases hbackend : op = .openBackend
      · subst hbackend
        simp only [Op.run, Prod.mk.injEq, Option.some.injEq] at hrun
        obtain ⟨hos, rfl, rfl⟩ := hrun
        rw [← hos]
        obtain ⟨hlive, hextra⟩ | hnone := live_kernBackend w.os (hopen rfl) hattr
        · exact .inr ⟨hattr, .inr ⟨hlive, by simp [hextra]⟩⟩
        · exact .inl (.of_no_module hnone)
      · obtain hmem | ⟨hlive, hmem⟩ := hahead
        · have hrest := (List.mem_cons.mp hmem).resolve_left (Ne.symm hbackend)
          exact .inr ⟨hattr' hattr, .inl (List.mem_append_right _ hrest)⟩
        · have hlive' := hstep.live hok (by simpa [hops] using hbackend) hd' hlive
          by_cases hflushes : op = .flushVerdicts
          · subst hflushes
            simp only [Op.run, Prod.mk.injEq, Option.some.injEq, hflush rfl] at hrun
            left
            rw [← hrun.1]
            obtain ⟨k, hk, -, heq⟩ | ⟨-, hdead⟩ :=
              Os.kernIoctl_cases w.os d.kern .ok KMod.verdictFlush
            · rw [heq]
              rintro _ ⟨⟩
              exact hempty
            · exact absurd hlive (hdead rfl)
          · have hrest := (List.mem_cons.mp hmem).resolve_left (Ne.symm hflushes)
            exact .inr ⟨hattr' hattr, .inr ⟨hlive', List.mem_append_right _ hrest⟩⟩

/-! ## every step -/

omit [Casing] in
/-- Around the main thread, what is cached stays within reach of the handle. -/
theorem Outside.cache_or_live {kern : Option Handle} (hout : Outside w ev w' o)
    (hempty : P Table.empty) (h : w.os.Cache P ∨ w.os.Live kern) :
    w'.os.Cache P ∨ w'.os.Live kern := by
  obtain h | h := h
  · exact .inl (hout.cache h hempty)
  · exact (hout.live h).symm.imp_left fun hnone => .of_no_module hnone.2

omit [Casing] in
theorem Outside.kept (hout : Outside w ev w' o) (hempty : P Table.empty) (hinv : Kept P w) :
    Kept P w' := by
  intro d' hd'
  obtain hnone | ⟨fallback, -, hnew⟩ | ⟨d, d₁, hd, hd₁, _, _, _, _, _, rfl⟩ := hout.daemon
  · simp [hnone] at hd'
  · obtain rfl := Option.some.inj (hnew.symm.trans hd')
    exact .inr (.inr (by decide : Op.openBackend ∈ startOps))
  · obtain rfl := Option.some.inj (hd₁.symm.trans hd')
    exact (hinv d hd).imp_left (hout.cache_or_live hempty)

omit [Casing] in
theorem Outside.ahead (hout : Outside w ev w' o) (hempty : P Table.empty) (hinv : Ahead P w) :
    Ahead P w' := by
  intro d' ops hd' hpc
  obtain hnone | ⟨fallback, -, hnew⟩ | ⟨d, d₁, hd, hd₁, _, _, _, _, _, rfl⟩ := hout.daemon
  · simp [hnone] at hd'
  · obtain rfl := Option.some.inj (hnew.symm.trans hd')
    cases hpc
  · obtain rfl := Option.some.inj (hd₁.symm.trans hd')
    obtain h | ⟨hattr, hmem | ⟨hlive, hmem⟩⟩ := hinv d ops hd hpc
    · exact .inl (hout.cache h hempty)
    · exact .inr ⟨hattr, .inl hmem⟩
    · obtain hlive' | ⟨-, hnone⟩ := hout.live hlive
      · exact .inr ⟨hattr, .inr ⟨hlive', hmem⟩⟩
      · exact .inl (.of_no_module hnone)

/-- The invariant of the flush. -/
structure Flushing (P : VCache → Prop) (w : World) : Prop where
  shaped : Shaped w
  kept : Kept P w
  ahead : Ahead P w

theorem step_flushing (h : w.step ev = some (w', o)) (hsafe : FlushSafe P w ev)
    (hempty : P Table.empty) (hinv : Flushing P w) : Flushing P w' := by
  have hshaped := step_shaped h hinv.shaped
  obtain ⟨inp, d, rfl, hd, hmain⟩ | hout := step_cases h
  · exact ⟨hshaped, hmain.kept hd hsafe hinv.shaped hempty hinv.kept,
      hmain.ahead hd hsafe hinv.shaped hempty hinv.kept hinv.ahead⟩
  · exact ⟨hshaped, hout.kept hempty hinv.kept, hout.ahead hempty hinv.ahead⟩

theorem reachable_flushing (hempty : P Table.empty) (h : Reachable (FlushSafe P) w) :
    Flushing P w := by
  obtain ⟨w₀, hinit, hrun⟩ := h
  refine hrun.invariant ⟨hinit.no_daemon, hinit.no_daemon, ?_⟩ fun _ _ _ _ hinv hsafe hstep =>
    step_flushing hstep hsafe hempty hinv
  intro d ops hd
  simp [hinit.2] at hd

/-! ## the end of the tick -/

omit [Casing] in
/-- Nothing is cached. -/
def Uncached (t : VCache) : Prop := ∀ key v, ¬ t.Mem key v

/-- **A cached verdict does not outlive its rule.**  In a run in which the
device does not fail, and in which every reload reads a policy that names the
kernel backend or finds nothing cached, a tick that has reloaded the policy ends
with nothing cached. -/
theorem reload_flushes (hw : Reachable (FlushSafe Uncached) w) (hd : w.daemon = some d)
    (hpc : d.pc = .ticking true []) : w.os.Cache Uncached := by
  obtain h | ⟨-, hmem | ⟨-, hmem⟩⟩ :=
    (reachable_flushing Table.not_mem_empty hw).ahead d [] hd hpc
  · exact h
  · cases hmem
  · cases hmem

/-- Reloads read a policy that names the kernel backend. -/
def ReloadsKernel (w : World) (ev : Event) : Bool :=
  match ev with
  | .daemon _ => w.daemon.all fun d => d.pc.ops.head? != some .reload ||
      (Policy.loadFile w.os.policyData).attributionMode = .kernel
  | _ => true

theorem flushSafe_of_untroubled (hev : Untroubled ev) (hreload : ReloadsKernel w ev = true) :
    FlushSafe P w ev := by
  cases ev with
  | daemon inp =>
      refine ⟨fun n => by simp [hev.1 n], fun d hd => ⟨fun _ => hev.2, fun _ => hev.1 0, ?_⟩⟩
      intro hhead
      simp only [ReloadsKernel, hd, Option.all_some, hhead, bne_self_eq_false, Bool.false_or,
        decide_eq_true_eq] at hreload
      exact .inl hreload
  | _ => trivial

omit [Casing] in
/-- A datagram of `/a` is judged and its verdict cached; then the policy file
is replaced. -/
def reloadEvents (text : String) (n : Nat) : List Event :=
  kernelEvents ++ missEvents [443] ++ editEvents text n

omit [Casing] in
theorem untroubled_reloadEvents (text : String) (n : Nat) :
    ∀ ev ∈ reloadEvents text n, Untroubled ev := by
  simp only [reloadEvents, List.mem_append]
  rintro ev ((h | h) | h)
  · exact untroubled_kernelEvents ev h
  · exact untroubled_missEvents _ ev h
  · exact untroubled_editEvents _ _ ev h

omit [Casing] in
/-- A policy that no longer allows `/a`, and still names the kernel backend, is
reloaded with nothing cached at the end. -/
theorem reload_flushes_kernel :
    letI := asciiCasing
    ∃ (w : World) (d : Daemon) (k : KMod), w.daemon = some d ∧ d.pc = .ticking true [] ∧
      w.os.kmod = some k ∧ Uncached k.cache := by
  let _ := asciiCasing
  obtain ⟨w, hw, hp⟩ := exists_reachable_by_exec (fun w ev => ReloadsKernel w ev = true)
    (World.withPolicy "attribution kernel\nallow-app /a\n") ⟨rfl, rfl⟩
    (reloadEvents "attribution kernel\n" 10)
    (fun w => w.os.kmod.isSome && w.daemon.any fun d => d.pc = .ticking true [])
    (by decide +kernel)
  rw [Bool.and_eq_true] at hp
  obtain ⟨k, hk⟩ := Option.isSome_iff_exists.mp hp.1
  obtain ⟨d, hd, hpc⟩ := (Option.any_eq_true _ _).mp hp.2
  rw [decide_eq_true_eq] at hpc
  have hsafe : Reachable (FlushSafe Uncached) w := hw.mono fun w ev h =>
    flushSafe_of_untroubled (untroubled_reloadEvents _ _ ev h.2) h.1
  exact ⟨w, d, k, hd, hpc, hk, reload_flushes hsafe hd hpc k hk⟩

omit [Casing] in
/-- A policy that no longer names the kernel backend leaves the allow of `/a`
in the kernel, although the device does not fail. -/
theorem reload_keeps_entry :
    letI := asciiCasing
    ¬ ∀ (w : World) (d : Daemon), Reachable (fun _ ev => Untroubled ev) w → w.daemon = some d →
      d.pc = .ticking true [] → w.os.Cache Uncached := by
  let _ := asciiCasing
  intro h
  obtain ⟨w, hw, hp⟩ := exists_reachable_by_exec (fun _ _ => True)
    (World.withPolicy "attribution kernel\nallow-app /a\n") ⟨rfl, rfl⟩ (reloadEvents "" 14)
    (fun w => (w.os.kmod.any fun k => k.cache.lookup missKey = some .allow) &&
      w.daemon.any fun d => d.pc = .ticking true [])
    (by decide +kernel)
  rw [Bool.and_eq_true] at hp
  obtain ⟨k, hk, hallow⟩ := (Option.any_eq_true _ _).mp hp.1
  obtain ⟨d, hd, hpc⟩ := (Option.any_eq_true _ _).mp hp.2
  rw [decide_eq_true_eq] at hallow hpc
  have hsafe : Reachable (fun _ ev => Untroubled ev) w := hw.mono fun w ev h =>
    untroubled_reloadEvents _ _ ev h.2
  exact h w d hsafe hd hpc k hk missKey .allow (Table.mem_of_find hallow)

end Pfsnitch
