import Pfsnitch.Daemon.Misses

/-!
# Pfsnitch.Orphans

No request is left that nobody will resolve.

A request that has been delivered is not delivered again, so the daemon that has
read it is the only one to resolve it.  In a run that turns the upcall on only
over requests that the daemon knows, that drops waiters only with the upcall
off, and whose drains reach the module (`Accounted`), every delivered request is
known to the daemon while the upcall is on (`no_orphaned_upcall`); a restart of
the daemon is enough to break it (`orphaned_upcall_on_restart`).
-/

namespace Pfsnitch

open Lib

variable [Casing]

variable {w w' : World} {d d' : Daemon} {ev : Event} {o : List Output} {inp : Input} {os os' : Os}
  {k k' : KMod}

/-- A request is queued that has been delivered and that the daemon does not know. -/
def Orphaned (k : KMod) (d : Daemon) : Prop :=
  ∃ r ∈ k.reqs, r.delivered = true ∧ ∀ e, d.Knows e → e.id ≠ r.id

/-- The upcall is turned on over no orphan; the waiters are dropped with the
upcall off; and the drains reach the module, or none of their requests is queued. -/
def Accounted (w : World) : Event → Prop
  | .daemon inp => ∀ d, w.daemon = some d →
      (d.pc.ops.head? = some (.setUpcall true) → ∀ k, w.os.Device d.kern k → ¬ Orphaned k d) ∧
      (d.pc.ops.head? = some .markOff → w.os.Upcall false) ∧
      ((w.os.Live d.kern ∧ ∀ n, inp.ioctl n = .ok) ∨
        ∀ e ∈ d.resolving, ∀ k, w.os.kmod = some k → ∀ r ∈ k.reqs, r.id ≠ e.id)
  | _ => True

/-! ## the device stays open -/

omit [Casing] in
theorem kernIoctl_gen (os : Os) (kern : Option Handle) (out : IoctlOutcome) (f : KMod → KMod) :
    (kernIoctl os kern out f).2.map (·.gen) = kern.map (·.gen) := by
  cases kern with
  | none => rfl
  | some h =>
      simp only [kernIoctl, Os.ioctl]
      split
      · rfl
      · split <;> rfl

omit [Casing] in
theorem resolveAll_gen {v : KVerdict} {n : Nat} {ids : List Nat} {kern kern' : Option Handle}
    (h : resolveAll inp v n ids os kern = (os', kern')) :
    kern'.map (·.gen) = kern.map (·.gen) := by
  induction ids generalizing n os kern with
  | nil =>
      obtain ⟨-, rfl⟩ := Prod.mk.inj h
      rfl
  | cons id ids ih =>
      rw [resolveAll_cons] at h
      exact (ih h).trans (kernIoctl_gen _ _ _ _)

omit [Casing] in
/-- Whether the device is held open is a matter of the descriptors' generations. -/
theorem Daemon.holdsDevice_congr {gen : Nat} (hkern : d'.kern.map (·.gen) = d.kern.map (·.gen))
    (hreaders : d'.readers.map (·.gen) = d.readers.map (·.gen)) :
    d'.holdsDevice gen = d.holdsDevice gen := by
  have hk : ∀ kern : Option Handle, (kern.any fun h => h.gen = gen) =
      (kern.map (·.gen)).any fun g => g = gen := fun kern => by cases kern <;> rfl
  have hr : ∀ l : List Reader, (l.any fun r => r.gen = gen) =
      (l.map (·.gen)).any fun g => g = gen := fun l => by rw [List.any_map]; rfl
  rw [holdsDevice, holdsDevice, hk, hk, hr, hr, hkern, hreaders]

omit [Casing] in
/-- An upcall that is still on after a descriptor was closed: the device is still open. -/
theorem Os.holds_of_closed {gen : Nat} {stillOpen : Bool}
    (hk' : (os.closed gen stillOpen).kmod = some k') (hon : k'.upcallOn = true) :
    gen ≠ os.gen ∨ stillOpen = true := by
  unfold Os.closed at hk'
  split at hk'
  · obtain ⟨k, -, rfl⟩ := Option.map_eq_some_iff.mp hk'
    cases hon
  · rename_i hopen
    by_cases hgen : gen = os.gen
    · exact .inr (by simpa [hgen] using hopen)
    · exact .inl hgen

omit [Casing] in
/-- A daemon that holds the device does not leave the upcall on behind it. -/
theorem upcall_of_closeAll (hholds : d.holdsDevice os.gen = true)
    (hk' : (closeAll os d).kmod = some k') : k'.upcallOn = false := by
  unfold closeAll at hk'
  rw [if_pos hholds] at hk'
  obtain ⟨k, -, rfl⟩ := Option.map_eq_some_iff.mp hk'
  rfl

omit [Casing] in
/-- When the handle is given up and the upcall is still on, something else holds the device. -/
theorem Daemon.holds_of_kern_closed {h : Handle} (hholds : d.holdsDevice os.gen = true)
    (hkern : d.kern = some h) (hreaders : d'.readers = d.readers)
    (hk' : (os.closed h.gen (d'.holdsDevice h.gen)).kmod = some k') (hon : k'.upcallOn = true) :
    d'.holdsDevice os.gen = true := by
  obtain hne | hopen := Os.holds_of_closed hk' hon
  · unfold holdsDevice at hholds ⊢
    rw [hkern, Option.any_some, decide_eq_false hne, Bool.false_or] at hholds
    rw [hreaders, hholds, Bool.or_true]
  · by_cases hgen : h.gen = os.gen
    · exact hgen ▸ hopen
    · unfold holdsDevice at hholds ⊢
      rw [hkern, Option.any_some, decide_eq_false hgen, Bool.false_or] at hholds
      rw [hreaders, hholds, Bool.or_true]

omit [Casing] in
/-- Without the handle it is the readers that hold the device. -/
theorem Daemon.holds_of_kern_none (hholds : d.holdsDevice os.gen = true) (hkern : d.kern = none)
    (hreaders : d'.readers = d.readers) : d'.holdsDevice os.gen = true := by
  unfold holdsDevice at hholds ⊢
  rw [hkern, Option.any_none, Bool.false_or] at hholds
  rw [hreaders, hholds, Bool.or_true]

omit [Casing] in
/-- A new handle may take the place of the old one. -/
theorem kernBackend_holds {ops : List Op} (h : kernBackend inp os d = (os', d', ops))
    (hholds : d.holdsDevice os.gen = true) (hk' : os'.kmod = some k') (hon : k'.upcallOn = true) :
    d'.holdsDevice os.gen = true := by
  simp only [kernBackend, Prod.mk.injEq] at h
  obtain ⟨rfl, rfl, -⟩ := h
  cases hkern : d.kern with
  | none => exact Daemon.holds_of_kern_none hholds hkern rfl
  | some h =>
      simp only [hkern] at hk'
      exact Daemon.holds_of_kern_closed hholds hkern rfl hk' hon

omit [Casing] in
theorem reopenBackend_holds {ops : List Op} (h : reopenBackend inp os d = (os', d', ops))
    (hholds : d.holdsDevice os.gen = true) (hk' : os'.kmod = some k') (hon : k'.upcallOn = true) :
    d'.holdsDevice os.gen = true := by
  simp only [reopenBackend, closeKern] at h
  split at h
  · cases hkern : d.kern with
    | some b =>
        simp only [hkern] at h
        split at h <;> obtain ⟨rfl, rfl, -⟩ := by simpa only [Prod.mk.injEq] using h
        · exact Daemon.holds_of_kern_closed hholds hkern rfl hk' hon
        · exact hholds
    | none =>
        simp only [hkern] at h
        split at h <;> obtain ⟨rfl, rfl, -⟩ := by simpa only [Prod.mk.injEq] using h
        · exact Daemon.holds_of_kern_none hholds hkern rfl
        · exact hholds
  · obtain ⟨rfl, rfl, -⟩ := by simpa only [Prod.mk.injEq] using h
    exact hholds

/-- While the upcall stays on, no effect gives the device up. -/
theorem Op.run_holds {op : Op} {extra : List Op} {d₁ : Option Daemon}
    (hrun : op.run inp os d = (os', d₁, extra)) (hholds : d.holdsDevice os.gen = true)
    (hk' : os'.kmod = some k') (hon : k'.upcallOn = true) :
    ∃ d', d₁ = some d' ∧ d'.holdsDevice os.gen = true := by
  have same : ∀ d' : Daemon, d'.kern.map (·.gen) = d.kern.map (·.gen) →
      d'.readers.map (·.gen) = d.readers.map (·.gen) → d'.holdsDevice os.gen = true :=
    fun d' hkern hreaders => (Daemon.holdsDevice_congr hkern hreaders).trans hholds
  cases op with
  | openBackend =>
      simp only [Op.run, Prod.mk.injEq] at hrun
      obtain ⟨rfl, rfl, -⟩ := hrun
      exact ⟨_, rfl, kernBackend_holds rfl hholds hk' hon⟩
  | reopen =>
      simp only [Op.run, Prod.mk.injEq] at hrun
      obtain ⟨rfl, rfl, -⟩ := hrun
      exact ⟨_, rfl, reopenBackend_holds rfl hholds hk' hon⟩
  | flushVerdicts | setUpcall on =>
      simp only [Op.run, Prod.mk.injEq] at hrun
      obtain ⟨-, rfl, -⟩ := hrun
      exact ⟨_, rfl, same _ (kernIoctl_gen _ _ _ _) rfl⟩
  | bind =>
      simp only [Op.run] at hrun
      split at hrun
      · obtain ⟨-, rfl, -⟩ := by simpa only [Prod.mk.injEq] using hrun
        exact ⟨_, rfl, hholds⟩
      · obtain ⟨rfl, -, -⟩ := by simpa only [Prod.mk.injEq] using hrun
        rw [upcall_of_closeAll hholds hk'] at hon
        cases hon
  | openReader =>
      simp only [Op.run] at hrun
      split at hrun
      · obtain ⟨-, rfl, -⟩ := by simpa only [Prod.mk.injEq] using hrun
        refine ⟨_, rfl, ?_⟩
        unfold Daemon.holdsDevice at hholds ⊢
        rw [List.any_append, ← Bool.or_assoc, hholds, Bool.true_or]
      · obtain ⟨-, rfl, -⟩ := by simpa only [Prod.mk.injEq] using hrun
        exact ⟨_, rfl, hholds⟩
  | spawnReader =>
      simp only [Op.run, Prod.mk.injEq] at hrun
      obtain ⟨-, rfl, -⟩ := hrun
      refine ⟨_, rfl, same _ rfl ?_⟩
      rw [List.map_map]
      rfl
  | checkMtime | reconcile =>
      simp only [Op.run] at hrun
      repeat' split at hrun
      all_goals
        obtain ⟨-, rfl, -⟩ := by simpa only [Prod.mk.injEq] using hrun
        exact ⟨_, rfl, hholds⟩
  | loadPolicy | readMtime | reload | clearDecided | markOn | markOff | setUdpDivert =>
      simp only [Op.run, Prod.mk.injEq] at hrun
      obtain ⟨-, rfl, -⟩ := hrun
      exact ⟨_, rfl, hholds⟩

/-- No packet gives the device up. -/
theorem handlePacket_holds {pkt : Packet} {src : Sockaddr} {r : Handled}
    (hr : handlePacket inp os d pkt src = r) (hholds : d.holdsDevice os.gen = true) :
    r.daemon.holdsDevice os.gen = true := by
  have same : ∀ d' : Daemon, d'.kern.map (·.gen) = d.kern.map (·.gen) →
      d'.readers.map (·.gen) = d.readers.map (·.gen) → d'.holdsDevice os.gen = true :=
    fun d' hkern hreaders => (Daemon.holdsDevice_congr hkern hreaders).trans hholds
  have hasks : ∀ {kern}, asksKern inp os d kern → kern.map (·.gen) = d.kern.map (·.gen) := by
    rintro kern (rfl | rfl)
    · rfl
    · exact kernIoctl_gen _ _ _ _
  have hcase := hr ▸ handlePacket_cases inp os d _ _
  cases hcase with
  | unjudged | dns | fast => exact hholds
  | slow hparse hdns hsrc hopens hlookup hkern hslow =>
      cases hslow with
      | settled hv hpush =>
          obtain ⟨-, rfl⟩ | ⟨_, -, -, -, rfl⟩ := pushSettled_cases hpush
          · exact same _ (hasks hkern) rfl
          · exact same _ ((kernIoctl_gen _ _ _ _).trans (hasks hkern)) rfl
      | held hv hmode hraise =>
          obtain ⟨⟨_, _, rfl⟩, -⟩ := raise_cases hraise
          exact same _ (hasks hkern) rfl
      | learned => exact same _ (hasks hkern) rfl

/-- While the upcall stays on, a daemon that holds the device goes on holding it. -/
theorem MainStep.holds (hstep : MainStep inp os d w' o) (hholds : d.holdsDevice os.gen = true)
    (hk' : w'.os.kmod = some k') (hon : k'.upcallOn = true) :
    ∃ d', w'.daemon = some d' ∧ d'.holdsDevice os.gen = true := by
  have same : ∀ d' : Daemon, d'.kern.map (·.gen) = d.kern.map (·.gen) →
      d'.readers = d.readers → d'.holdsDevice os.gen = true :=
    fun d' hkern hreaders => (Daemon.holdsDevice_congr hkern (by rw [hreaders])).trans hholds
  cases hstep with
  | moves => exact ⟨_, rfl, hholds⟩
  | exits =>
      rw [upcall_of_closeAll hholds hk'] at hon
      cases hon
  | answer hpc hrx hdrain =>
      obtain ⟨_, _, _, _, hr, -, -, rfl⟩ := drainAnswer_cases hdrain
      exact ⟨_, rfl, same _ (resolveAll_gen hr) rfl⟩
  | upcall hpc hurx hdrain =>
      refine ⟨_, rfl, ?_⟩
      cases drainUpcall_cases hdrain with
      | resolved hv hr => exact same _ (resolveAll_gen hr) rfl
      | asked hpath hv hraise =>
          obtain ⟨⟨_, _, rfl⟩, -⟩ := raise_cases hraise
          exact hholds
  | effect hpc hrun =>
      obtain ⟨d₁, rfl, hd₁⟩ := Op.run_holds hrun hholds hk' hon
      exact ⟨_, rfl, hd₁⟩
  | packet hpc hpkt hr => exact ⟨_, rfl, handlePacket_holds hr hholds⟩

/-! ## what happens to the queue -/

omit [Casing] in
theorem KMod.resolve_sub (k : KMod) (id : Nat) (v : KVerdict) (memory : Bool) :
    ∀ r ∈ (k.resolve id v memory).reqs, r ∈ k.reqs := by
  obtain heq | ⟨_, _, _, _, _, hsub⟩ := k.resolve_cases id v memory
  · rw [heq]
    exact fun _ h => h
  · exact hsub

omit [Casing] in
theorem KMod.mainKept_sub (k₀ : KMod) : KMod.MainKept fun k => ∀ r ∈ k.reqs, r ∈ k₀.reqs where
  resolve k id v memory h r hr := h r (k.resolve_sub id v memory r hr)
  verdictPush k proto addr fport v path memory h := by
    obtain heq | heq := k.verdictPush_cases proto addr fport v path memory <;> rw [heq] <;> exact h
  verdictFlush _ h := h
  upcallSet _ _ h := h
  devClose _ h := h

omit [Casing] in
/-- The ids that are resolved through a working handle are not queued any more. -/
theorem resolveAll_removes {v : KVerdict} {n : Nat} {ids : List Nat} {kern kern' : Option Handle}
    (hsound : os.Module KMod.Sound) (hlive : os.Live kern) (hok : ∀ n, inp.ioctl n = .ok)
    (hr : resolveAll inp v n ids os kern = (os', kern')) :
    os'.Module fun k => ∀ r ∈ k.reqs, r.id ∉ ids := by
  induction ids generalizing n os kern with
  | nil => exact fun _ _ _ _ => List.not_mem_nil
  | cons id ids ih =>
      rw [resolveAll_cons] at hr
      have hlive₁ := (Os.live_kernIoctl (f := fun k => k.resolve id v (inp.memory n))
        (show inp.ioctl n ≠ .fail true by simp [hok])).mpr hlive
      have hsound₁ : (kernIoctl os kern (inp.ioctl n) fun k =>
          k.resolve id v (inp.memory n)).1.Module KMod.Sound :=
        hsound.kernIoctl fun k hk => hk.resolve id v _
      have hgone : (kernIoctl os kern (inp.ioctl n) fun k =>
          k.resolve id v (inp.memory n)).1.Module fun k => ∀ r ∈ k.reqs, r.id ≠ id := by
        obtain ⟨k, hdev, -, heq⟩ | ⟨-, hdead⟩ :=
          Os.kernIoctl_cases os kern (inp.ioctl n) fun k => k.resolve id v (inp.memory n)
        · rw [heq]
          rintro _ ⟨⟩ r hmem
          exact ((hsound k hdev.kmod).mem_resolve.mp hmem).2
        · exact absurd hlive (hdead (hok n))
      generalize kernIoctl os kern (inp.ioctl n) (fun k => k.resolve id v (inp.memory n)) = res
        at hr hlive₁ hsound₁ hgone
      -- the id stays away while the others are resolved
      have hgone' : (resolveAll inp v (n + 1) ids res.1 res.2).1.Module
          fun k => ∀ r ∈ k.reqs, r.id ≠ id :=
        hgone.resolveAll fun k hk i _ memory r hr => hk r (k.resolve_sub i v memory r hr)
      rw [hr] at hgone'
      intro k' hk' r hmem
      rw [List.mem_cons, not_or]
      exact ⟨hgone' k' hk' r hmem, ih hsound₁ hlive₁ hr k' hk' r hmem⟩

/-! ## the invariant -/

/-- While the upcall is on, there is a daemon that holds the device, and it knows
every request that has been delivered. -/
def Served (w : World) : Prop :=
  ∀ k, w.os.kmod = some k → k.upcallOn = true →
    ∃ d, w.daemon = some d ∧ d.holdsDevice w.os.gen = true ∧ ¬ Orphaned k d

omit [Casing] in
theorem not_orphaned_iff : ¬ Orphaned k d ↔
    ∀ r ∈ k.reqs, r.delivered = true → ∃ e, d.Knows e ∧ e.id = r.id := by
  unfold Orphaned
  push Not
  rfl

theorem MainStep.served (hstep : MainStep inp w.os d w' o) (hd : w.daemon = some d)
    (hok : Accounted w (.daemon inp)) (hsound : w.os.Module KMod.Sound) (hinv : Served w) :
    Served w' := by
  intro k' hk' hon
  obtain ⟨k, hk⟩ := hstep.loaded hk'
  obtain ⟨hset, hmark, hdrain⟩ := hok d hd
  have hbefore : d.holdsDevice w.os.gen = true ∧ ¬ Orphaned k d ∧
      (k.upcallOn = true ∨ d.pc.ops.head? = some (.setUpcall true)) := by
    cases hup : k.upcallOn with
    | true =>
        obtain ⟨d₁, hd₁, hholds, hno⟩ := hinv k hk hup
        obtain rfl := Option.some.inj (hd.symm.trans hd₁)
        exact ⟨hholds, hno, .inl rfl⟩
    | false =>
        obtain ⟨hhead, hdev⟩ := hstep.turned_on hk hk' hon hup
        exact ⟨Os.Live.holdsDevice ⟨k, hdev⟩, hset hhead k hdev, .inr hhead⟩
  obtain ⟨hholds, hno, hup⟩ := hbefore
  obtain ⟨d', hd', hholds'⟩ := hstep.holds hholds hk' hon
  refine ⟨d', hd', hstep.gen ▸ hholds', not_orphaned_iff.mpr fun r hr hdel => ?_⟩
  have hmem : r ∈ k.reqs := by
    refine hstep.module (KMod.mainKept_sub k) (fun k₁ hk₁ => ?_) k' hk' r hr
    rw [Option.some.inj (hk₁.symm.trans hk)]
    exact fun _ h => h
  obtain ⟨e, hknows, hid⟩ := not_orphaned_iff.mp hno r hmem hdel
  obtain hknows' | ⟨hev, hids, hres, hkmod⟩ | ⟨hpc, -⟩ := hstep.keeps_known hd' hknows
  · exact ⟨e, hknows', hid⟩
  · -- the request of a drained event is gone
    obtain ⟨hlive, hioctl⟩ | hnone := hdrain
    · exact absurd (hid ▸ hids)
        (resolveAll_removes hsound hlive hioctl hres k' (hkmod ▸ hk') r hr)
    · exact absurd hid.symm (hnone e hev k hk r hmem)
  · -- the waiters are dropped with the upcall off
    obtain hup | hup := hup
    · rw [hmark hpc k hk] at hup
      cases hup
    · rw [hpc] at hup
      cases hup

omit [Casing] in
theorem map_gen_set {l : List Reader} {i : Nat} {r : Reader} (hr : l[i]? = some r)
    (holding : Option KernEvent) : (l.set i { r with holding }).map (·.gen) = l.map (·.gen) := by
  induction l generalizing i with
  | nil => rfl
  | cons s l ih =>
      cases i with
      | zero =>
          obtain rfl : s = r := by simpa using hr
          rfl
      | succ i =>
          rw [List.set_cons_succ, List.map_cons, List.map_cons, ih (by simpa using hr)]

omit [Casing] in
theorem any_eraseIdx {l : List Reader} {i : Nat} {r : Reader} (hr : l[i]? = some r)
    {p : Reader → Bool} (hp : p r = false) : (l.eraseIdx i).any p = l.any p := by
  induction l generalizing i with
  | nil => rfl
  | cons s l ih =>
      cases i with
      | zero => simp_all
      | succ i => simp_all

omit [Casing] in
/-- What a read leaves in the queue is as it was, the request that is read apart. -/
theorem KMod.delivered_of_read {q : Req} (hread : k.read = (.event q, k')) :
    ∀ r ∈ k'.reqs, r.delivered = true →
      (∃ s ∈ k.reqs, s.delivered = true ∧ s.id = r.id) ∨ r.id = q.id := by
  obtain ⟨-, -, rfl⟩ := KMod.read_event hread
  intro s hs hdel
  obtain ⟨s₀, hs₀, rfl⟩ := List.mem_map.mp hs
  by_cases hid : s₀.id = q.id
  · right
    rw [if_pos hid]
    exact hid
  · left
    rw [if_neg hid] at hdel ⊢
    exact ⟨s₀, hs₀, hdel, rfl⟩

omit [Casing] in
/-- What the hook queues is still to be delivered. -/
theorem KMod.delivered_of_checkConnect (k : KMod) (so : Socket) (sa : SockAddr) (memory : Bool)
    (now : Nat) : ∀ r ∈ (k.checkConnect so sa memory now).2.reqs, r.delivered = true →
      r ∈ k.reqs := by
  intro r hr hdel
  have hstep := k.checkConnect_step so sa memory now
  generalize k.checkConnect so sa memory now = res at hr hstep
  cases hstep with
  | refused => exact hr
  | swept => exact (k.reqGc_sublist _).subset hr
  | queued =>
      obtain hr | hr := List.mem_append.mp hr
      · exact (k.reqGc_sublist _).subset hr
      · rw [List.mem_singleton.mp hr] at hdel
        cases hdel

omit [Casing] in
/-- Around a daemon that stays: what it knows only grows, so it is enough that what is
delivered now was delivered before, or is known. -/
theorem Outside.served_of_stays (hout : Outside w ev w' o) (hinv : Served w)
    (hk : w.os.kmod = some k) (hup : k.upcallOn = true) (hd : w.daemon = some d)
    (hd' : w'.daemon = some d')
    (hkeep : d.holdsDevice w.os.gen = true → d'.holdsDevice w'.os.gen = true)
    (hreqs : ∀ r ∈ k'.reqs, r.delivered = true →
      (∃ s ∈ k.reqs, s.delivered = true ∧ s.id = r.id) ∨ ∃ e, d'.Knows e ∧ e.id = r.id) :
    ∃ d, w'.daemon = some d ∧ d.holdsDevice w'.os.gen = true ∧ ¬ Orphaned k' d := by
  obtain ⟨d₁, hd₁, hholds, hno⟩ := hinv k hk hup
  obtain rfl := Option.some.inj (hd.symm.trans hd₁)
  refine ⟨d', hd', hkeep hholds, not_orphaned_iff.mpr fun r hr hdel => ?_⟩
  obtain ⟨s, hs, hsdel, hsid⟩ | hknown := hreqs r hr hdel
  · obtain ⟨e, hknows, hid⟩ := not_orphaned_iff.mp hno s hs hsdel
    exact ⟨e, hout.keeps_known hd hd' hknows, hid.trans hsid⟩
  · exact hknown

omit [Casing] in
/-- A reader that ends leaves the device open when something else holds it. -/
theorem Os.holds_of_dropReader {i : Nat} {r : Reader} (hr : d.readers[i]? = some r)
    (hk' : (dropReader os d i r).os.kmod = some k') (hon : k'.upcallOn = true)
    (hholds : d.holdsDevice os.gen = true) :
    Daemon.holdsDevice { d with readers := d.readers.eraseIdx i } os.gen = true := by
  by_cases hgen : r.gen = os.gen
  · exact hgen ▸ (Os.holds_of_closed hk' hon).resolve_left (not_not.mpr hgen)
  · unfold Daemon.holdsDevice at hholds ⊢
    rwa [any_eraseIdx hr (decide_eq_false hgen)]

omit [Casing] in
theorem Outside.served (hout : Outside w ev w' o) (hinv : Served w) : Served w' := by
  intro k' hk' hon
  have hstep := hout
  have same : ∀ {k d d'}, w.os.kmod = some k → k.upcallOn = true → w.daemon = some d →
      w'.daemon = some d' → (d.holdsDevice w.os.gen = true → d'.holdsDevice w'.os.gen = true) →
      (∀ r ∈ k'.reqs, r.delivered = true → r ∈ k.reqs) →
      ∃ d, w'.daemon = some d ∧ d.holdsDevice w'.os.gen = true ∧ ¬ Orphaned k' d :=
    fun hk hup hd hd' hkeep hsub => hout.served_of_stays hinv hk hup hd hd' hkeep
      fun r hr hdel => .inl ⟨r, hsub r hr hdel, hdel, rfl⟩
  have all : ∀ r ∈ k'.reqs, r.delivered = true → r ∈ k'.reqs := fun _ hr _ => hr
  have daemon : ∀ {k}, w.os.kmod = some k → k.upcallOn = true → ∃ d, w.daemon = some d :=
    fun hk hup => (hinv _ hk hup).imp fun _ => And.left
  cases hout with
  | loadModule =>
      obtain rfl := Option.some.inj hk'
      cases hon
  | unloadModule => cases hk'
  | startDaemon hnone =>
      obtain ⟨d, hd⟩ := daemon hk' hon
      rw [hnone] at hd
      cases hd
  | @crash d hd =>
      unfold closeAll at hk'
      split at hk'
      · obtain ⟨k, -, rfl⟩ := Option.map_eq_some_iff.mp hk'
        cases hon
      · rename_i hopen
        obtain ⟨d₁, hd₁, hholds, -⟩ := hinv k' hk' hon
        obtain rfl := Option.some.inj (hd.symm.trans hd₁)
        exact absurd hholds hopen
  | @readerEnd d i r _ hd hr hidle =>
      have hk : w.os.kmod = some k' := by
        simp only [dropReader, Os.closed] at hk'
        split at hk'
        · obtain ⟨k, -, rfl⟩ := Option.map_eq_some_iff.mp hk'
          cases hon
        · exact hk'
      refine same hk hon hd rfl (fun hholds => ?_) all
      rw [dropReader, Os.closed_gen]
      exact Os.holds_of_dropReader hr hk' hon hholds
  | @readerRead d i r k _ q _ hd hr hreach hread hidle =>
      obtain rfl := Option.some.inj hk'
      obtain ⟨hup, -⟩ := KMod.read_event hread
      refine hstep.served_of_stays hinv (Os.reach_eq_some.mp hreach).2 hup hd rfl
        (fun hholds => ?_) fun s hs hdel => ?_
      · refine (Daemon.holdsDevice_congr ?_ (map_gen_set hr _)).trans hholds
        rfl
      · refine (KMod.delivered_of_read hread s hs hdel).imp_right fun hid => ?_
        -- the reader holds what it has read
        have hlt : i < d.readers.length := (List.getElem?_eq_some_iff.mp hr).1
        exact ⟨q.event, .inl (.inl ⟨_, List.mem_set hlt _, rfl⟩), hid.symm⟩
  | @hook so sa memory k _ r hk hr =>
      obtain rfl := Option.some.inj hk'
      have hframe := k.checkConnect_frame so sa memory (w.os.now / 1000)
      have hold := k.delivered_of_checkConnect so sa memory (w.os.now / 1000)
      rw [hr] at hframe hold
      have hup : k.upcallOn = true := hframe.2 ▸ hon
      obtain ⟨d, hd⟩ := daemon hk hup
      exact same hk hup hd hd id hold
  | setFailmode =>
      obtain ⟨k, hk, rfl⟩ := Option.map_eq_some_iff.mp hk'
      exact hinv k hk hon
  | kernelReset =>
      obtain ⟨k, hk, rfl⟩ := Option.map_eq_some_iff.mp hk'
      cases hon
  | signal hd | promptDone hd => exact same hk' hon hd rfl id all
  | @readerSend d i r e hd hr hev =>
      refine same hk' hon hd rfl (fun hholds => ?_) all
      refine (Daemon.holdsDevice_congr ?_ (map_gen_set hr _)).trans hholds
      rfl
  | noHook | editPolicy | changeEnv | wait | pfAnchor => exact hinv k' hk' hon

/-- In every such run, what has been delivered is known to a daemon that is there. -/
theorem reachable_served (hw : Reachable Accounted w) : Served w := by
  obtain ⟨w₀, hinit, hrun⟩ := hw
  refine (hrun.invariant (P := fun w => w.os.Module KMod.Sound ∧ Served w) ⟨?_, ?_⟩ ?_).2
  · intro k hk
    rw [hinit.1] at hk
    cases hk
  · intro k hk
    rw [hinit.1] at hk
    cases hk
  · rintro w w' ev o ⟨hsound, hserved⟩ hok hstep
    refine ⟨step_module hstep KMod.kept_sound hsound, ?_⟩
    obtain ⟨inp, d, rfl, hd, hmain⟩ | hout := step_cases hstep
    · exact hmain.served hd hok hsound hserved
    · exact hout.served hserved

/-- **No orphaned upcall.**  In a run that meets `Accounted`, while the upcall is
on there is a daemon, and every request in the module's queue is still to be
delivered, or in transit in the daemon's reader or channel, or waits there for
an answer. -/
theorem no_orphaned_upcall (hw : Reachable Accounted w) (hk : w.os.kmod = some k)
    (hon : k.upcallOn = true) : ∃ d, w.daemon = some d ∧ ∀ r ∈ k.reqs, r.delivered = false ∨
      (∃ e, d.InTransit e ∧ e.id = r.id) ∨ ∃ e, d.Waits e ∧ e.id = r.id := by
  obtain ⟨d, hd, -, hno⟩ := reachable_served hw k hk hon
  refine ⟨d, hd, fun r hr => ?_⟩
  cases hdel : r.delivered with
  | false => exact .inl rfl
  | true =>
      obtain ⟨e, hknows, hid⟩ := not_orphaned_iff.mp hno r hr hdel
      exact .inr (hknows.imp (fun h => ⟨e, h, hid⟩) fun h => ⟨e, h, hid⟩)

omit [Casing] in
/-- Steps that are easily seen to be accounted for: the upcall is turned on only
over an empty queue, no waiters are dropped, and the handle works. -/
def AccountedCalm (w : World) : Event → Bool
  | .daemon _ => w.daemon.all fun d =>
      (d.pc.ops.head? != some (.setUpcall true) || w.os.kmod.all (·.reqs.isEmpty)) &&
      d.pc.ops.head? != some .markOff &&
      ((d.kern.any fun h => !h.dead && h.gen == w.os.gen) && w.os.kmod.isSome ||
        d.resolving.isEmpty)
  | _ => true

theorem accounted_of_calm (hev : Untroubled ev) (h : AccountedCalm w ev = true) :
    Accounted w ev := by
  cases ev with
  | daemon inp =>
      intro d hd
      simp only [AccountedCalm, hd, Option.all_some, Bool.and_eq_true, Bool.or_eq_true,
        bne_iff_ne, ne_eq] at h
      obtain ⟨⟨henables, hdrops⟩, hdrains⟩ := h
      refine ⟨fun hhead k hdev => ?_, fun hhead => absurd hhead hdrops, ?_⟩
      · have hempty := henables.resolve_left (not_not.mpr hhead)
        rw [hdev.kmod, Option.all_some, List.isEmpty_iff] at hempty
        rintro ⟨r, hr, -⟩
        rw [hempty] at hr
        cases hr
      · obtain ⟨hkern, hk⟩ | hnone := hdrains
        · left
          obtain ⟨h, hh, hlive⟩ := (Option.any_eq_true _ _).mp hkern
          simp only [Bool.and_eq_true, Bool.not_eq_true', beq_iff_eq] at hlive
          exact ⟨Os.live_iff.mpr ⟨h, hh, hlive.1, hlive.2, hk⟩, hev.1⟩
        · right
          rw [List.isEmpty_iff.mp hnone]
          exact fun e he => absurd he List.not_mem_nil
  | _ => trivial

omit [Casing] in
/-- The start-up and a miss are such a run: the request has been delivered, and
it is one of those that wait. -/
theorem no_orphaned_upcall_miss :
    letI := asciiCasing
    ∃ (w : World) (d : Daemon) (k : KMod) (r : Req), w.daemon = some d ∧ w.os.kmod = some k ∧
      k.upcallOn = true ∧ r ∈ k.reqs ∧ r.delivered = true ∧ ∃ e, d.Waits e ∧ e.id = r.id := by
  let _ := asciiCasing
  obtain ⟨w, hw, hp⟩ := exists_reachable_by_exec (fun w ev => AccountedCalm w ev = true)
    (World.withPolicy "attribution kernel\n") ⟨rfl, rfl⟩ (kernelEvents ++ missEvents [443])
    (fun w => w.os.kmod.any (fun k => k.upcallOn && k.reqs.any (·.delivered)) &&
      w.daemon.any fun d => d.readers.all (·.holding.isNone) && d.urx.isEmpty)
    (by decide +kernel)
  rw [Bool.and_eq_true] at hp
  obtain ⟨⟨k, hk, hon⟩, d, hd, hidle⟩ := hp.imp (Option.any_eq_true _ _).mp (Option.any_eq_true _ _).mp
  simp only [Bool.and_eq_true, List.any_eq_true, List.all_eq_true, List.isEmpty_iff] at hon hidle
  obtain ⟨hon, r, hr, hdel⟩ := hon
  obtain ⟨hreaders, hurx⟩ := hidle
  have hok : Reachable Accounted w := hw.mono fun w ev h => accounted_of_calm (by
    obtain hev | hev := List.mem_append.mp h.2
    · exact untroubled_kernelEvents ev hev
    · exact untroubled_missEvents _ ev hev) h.1
  obtain ⟨d₁, hd₁, hall⟩ := no_orphaned_upcall hok hk hon
  obtain rfl := Option.some.inj (hd.symm.trans hd₁)
  obtain hno | ⟨e, htransit, -⟩ | hwaits := hall r hr
  · rw [hdel] at hno
    cases hno
  · exact absurd htransit (Daemon.not_inTransit hreaders hurx)
  · exact ⟨w, d, k, r, hd, hk, hon, hr, hdel, hwaits⟩

omit [Casing] in
/-- `/a` sends to port 443, and its request waits for an answer when the daemon is
killed and started again. -/
def restartEvents : List Event :=
  kernelEvents ++ missEvents [443] ++ [.crash] ++ startEvents .enforcement 6 ++ [.wait 1000] ++
    List.replicate 14 (.daemon {})

omit [Casing] in
theorem untroubled_restartEvents : ∀ ev ∈ restartEvents, Untroubled ev := by
  simp only [restartEvents, startEvents, List.mem_append, List.mem_cons, List.not_mem_nil, or_false]
  rintro ev (((((h | h) | rfl) | rfl | h) | rfl) | h)
  · exact untroubled_kernelEvents ev h
  · exact untroubled_missEvents _ ev h
  · trivial
  · trivial
  · exact untroubled_replicate _ ev h
  · trivial
  · exact untroubled_replicate _ ev h

omit [Casing] in
/-- After a restart of the daemon the upcall is on and a reader serves it, and the
request that the daemon before it has read is nobody's. -/
theorem orphaned_upcall_on_restart :
    letI := asciiCasing
    ¬ ∀ (w : World) (k : KMod) (d : Daemon), Reachable (fun _ ev => Untroubled ev) w →
      w.os.kmod = some k → k.upcallOn = true → w.daemon = some d →
      (∃ s ∈ d.readers, s.started = true ∧ s.gen = w.os.gen) →
      ∀ r ∈ k.reqs, r.delivered = false ∨
        (∃ e, d.InTransit e ∧ e.id = r.id) ∨ ∃ e, d.Waits e ∧ e.id = r.id := by
  let _ := asciiCasing
  intro h
  obtain ⟨w, hw, hp⟩ := exists_reachable_by_exec (fun _ _ => True)
    (World.withPolicy "attribution kernel\n") ⟨rfl, rfl⟩ restartEvents
    (fun w => w.os.kmod.any (fun k => k.upcallOn && k.reqs.any (·.delivered)) &&
      w.daemon.any fun d => d.readers.all (·.holding.isNone) && d.urx.isEmpty &&
        d.pendingUpcalls.entries.isEmpty && d.readers.any fun s => s.started && s.gen = w.os.gen)
    (by decide +kernel)
  rw [Bool.and_eq_true] at hp
  obtain ⟨⟨k, hk, hon⟩, d, hd, hidle⟩ := hp.imp (Option.any_eq_true _ _).mp (Option.any_eq_true _ _).mp
  simp only [Bool.and_eq_true, List.any_eq_true, List.all_eq_true, List.isEmpty_iff] at hon hidle
  obtain ⟨hon, r, hr, hdel⟩ := hon
  obtain ⟨⟨⟨hreaders, hurx⟩, hwaiters⟩, s, hs, hstarted, hgen⟩ := hidle
  obtain hno | ⟨e, htransit, -⟩ | ⟨e, hwaits, -⟩ :=
    h w k d (hw.mono fun w ev h => untroubled_restartEvents ev h.2) hk hon hd
      ⟨s, hs, hstarted, of_decide_eq_true hgen⟩ r hr
  · rw [hdel] at hno
    cases hno
  · exact Daemon.not_inTransit hreaders hurx htransit
  · exact Daemon.not_waits hwaiters hwaits

end Pfsnitch
