import Pfsnitch.Daemon.Frame

/-!
# Pfsnitch.Daemon.Cache

What reaches the kernel's verdict cache.  Entries come from the main thread
only: from an answer, from a settled kernel event, or from a settled packet
(`Inserts`).  Everything else leaves the cache as it is or empties it
(`step_cache`).
-/

namespace Pfsnitch

open Lib

variable [Casing]

omit [Casing] in
/-- A request with this id waits in the module behind the handle, for this key. -/
def Os.Queued (os : Os) (kern : Option Handle) (id : Nat) (key : VKey) : Prop :=
  ∃ k, os.Device kern k ∧ ∃ r ∈ k.reqs, r.id = id ∧ r.key = key

/-- The entries that a step of the main thread may insert. -/
inductive Inserts (inp : Input) (os : Os) (d : Daemon) : VKey → KVerdict → Prop
  | answer {ans : Answer} {p : Pending} {rx : List (Answer × Pending)} {wtr : Waiter} {key : VKey}
      (hpc : d.pc = .answers) (hrx : d.rx = (ans, p) :: rx) (hw : wtr ∈ d.waiters p.key)
      (hq : os.Queued d.kern wtr.ev.id key) : Inserts inp os d key (toKVerdict ans.approves)
  | upcall {ev : KernEvent} {urx : List KernEvent} {key : VKey} {v : KVerdict}
      (hpc : d.pc = .upcalls) (hurx : d.urx = ev :: urx)
      (hv : ev.path = [] ∧ v = .allow ∨ ev.path ≠ [] ∧ eventVerdict os d ev = v.verdict)
      (hq : os.Queued d.kern ev.id key) : Inserts inp os d key v
  | packet {pkt : Packet} {src : Sockaddr} {f : Flow} {path : Str} {v : KVerdict}
      (hpc : d.pc = .recv) (hpkt : inp.packet = some (pkt, src)) (hparse : parse pkt = some f)
      (hsrc : src.addr = 0) (hmode : d.mode = .enforcement)
      (hexe : flowExe os.env f.key = some path)
      (hv : slowVerdict d.pol os.env d.names f.key = v.verdict) (hlive : os.Live d.kern) :
      Inserts inp os d ⟨f.proto, f.dst, f.dport, (utf8Bytes path).takeWhile (· ≠ 0)⟩ v

omit [Casing] in
theorem Os.Queued.live {os : Os} {kern : Option Handle} {id : Nat} {key : VKey} :
    os.Queued kern id key → os.Live kern
  | ⟨k, hk, _⟩ => ⟨k, hk⟩

/-- Entries are inserted through a handle that works. -/
theorem Inserts.live {inp : Input} {os : Os} {d : Daemon} {key : VKey} {v : KVerdict}
    (h : Inserts inp os d key v) : os.Live d.kern := by
  cases h with
  | answer _ _ _ hq | upcall _ _ _ hq => exact hq.live
  | packet _ _ _ _ _ _ _ hlive => exact hlive

/-- Entries are inserted between the effects of start-up, tick and shutdown. -/
theorem Inserts.ops {inp : Input} {os : Os} {d : Daemon} {key : VKey} {v : KVerdict}
    (h : Inserts inp os d key v) : d.pc.ops = [] := by
  cases h with
  | answer hpc | upcall hpc | packet hpc => simp [hpc, Pc.ops]

/-! ## the main thread -/

omit [Casing] in
/-- A handle that works after the kernel was asked about a flow worked before. -/
theorem asksKern.live {inp : Input} {os : Os} {d : Daemon} {kern : Option Handle}
    (h : asksKern inp os d kern) (hlive : os.Live kern) : os.Live d.kern := by
  rcases h with rfl | rfl
  · exact hlive
  · exact hlive.of_kernIoctl

variable {inp : Input} {os os' : Os} {d d' : Daemon} {o : List Output}

section Module
variable {P : KMod → Prop}

omit [Casing] in
theorem Os.Module.of_kmod_eq (h : os.Module P) (hk : os'.kmod = os.kmod) : os'.Module P :=
  fun k hk' => h k (hk ▸ hk')

omit [Casing] in
theorem Os.Module.closeAll (h : os.Module P) (hclose : ∀ k, P k → P k.devClose) (d : Daemon) :
    (closeAll os d).Module P := by
  unfold Pfsnitch.closeAll
  split
  · intro k' hk'
    obtain ⟨k, hk, rfl⟩ := Option.map_eq_some_iff.mp hk'
    exact hclose k (h k hk)
  · exact h

/-- The effects of start-up, tick and shutdown flush the cache, set the upcall, or close a
descriptor; they do nothing else to the module. -/
theorem Os.Module.run (h : os.Module P) (hflush : ∀ k, P k → P k.verdictFlush)
    (hset : ∀ k on, P k → P (k.upcallSet on)) (hclose : ∀ k, P k → P k.devClose) (op : Op) :
    (op.run inp os d).1.Module P := by
  cases op with
  | flushVerdicts => exact h.kernIoctl hflush
  | setUpcall on => exact h.kernIoctl fun k hk => hset k on hk
  | bind =>
      simp only [Op.run]
      split
      · exact h
      · exact h.closeAll hclose d
  | openBackend =>
      simp only [Op.run, kernBackend]
      split
      · exact h.closed hclose
      · exact h
  | reopen =>
      simp only [Op.run, reopenBackend, closeKern]
      repeat' split
      all_goals first | exact h | exact h.closed hclose
  | checkMtime | reconcile | openReader | setUdpDivert =>
      simp only [Op.run]
      repeat' split
      all_goals exact h
  | loadPolicy | readMtime | reload | clearDecided | spawnReader | markOn | markOff => exact h

end Module

variable {P : VCache → Prop}

omit [Casing] in
/-- The cache of the loaded module has a property. -/
def Os.Cache (os : Os) (P : VCache → Prop) : Prop := os.Module fun k => P k.cache

omit [Casing] in
/-- Resolving inserts under the keys of the queued requests. -/
theorem Os.Cache.resolveAll {kern kern' : Option Handle} {v : KVerdict} {n : Nat} {ids : List Nat}
    (h : os.Cache P) (hr : resolveAll inp v n ids os kern = (os', kern')) (hins : ∀ id ∈ ids, ∀ key, os.Queued kern id key →
      ∀ t memory, P t → P (VCache.cacheInsert t memory key v)) : os'.Cache P := by
  obtain rfl : (Pfsnitch.resolveAll inp v n ids os kern).1 = os' := congrArg Prod.fst hr
  by_cases hlive : os.Live kern
  · obtain ⟨k₀, hk₀⟩ := hlive
    -- along the way the queue only shrinks
    have hmod : os.Module fun k => P k.cache ∧ ∀ r ∈ k.reqs, os.Queued kern r.id r.key := by
      intro k hk
      obtain rfl := Option.some.inj (hk₀.kmod.symm.trans hk)
      exact ⟨h k₀ hk, fun r hr => ⟨k₀, hk₀, r, hr, rfl, rfl⟩⟩
    refine fun k hk => (hmod.resolveAll ?_ k hk).1
    · rintro k ⟨hP, hreqs⟩ id hid memory
      rcases k.resolve_cases id v memory with heq | ⟨r, hr, rfl, hcache, -, hsub⟩
      · rw [heq]
        exact ⟨hP, hreqs⟩
      · rw [hcache]
        exact ⟨hins r.id hid r.key (hreqs r hr) _ _ hP, fun s hs => hreqs s (hsub s hs)⟩
  · rw [Os.resolveAll_of_not_live hlive]
    exact h

/-- A step of the main thread inserts nothing but what `Inserts` lists. -/
theorem MainStep.cache {w' : World} (hstep : MainStep inp os d w' o) (h : os.Cache P)
    (hempty : P Table.empty) (hins : ∀ key v, Inserts inp os d key v →
      ∀ t memory, P t → P (VCache.cacheInsert t memory key v)) : w'.os.Cache P := by
  cases hstep with
  | moves => exact h
  | exits => exact Os.Module.closeAll h (fun _ hk => hk) d
  | answer hpc hrx hdrain =>
      obtain ⟨os₁, kern, pol, ls, hr, -, rfl, rfl⟩ := drainAnswer_cases hdrain
      have hres : os₁.Cache P := h.resolveAll hr fun id hid key hq => by
        obtain ⟨wtr, hw, rfl⟩ := List.mem_map.mp hid
        exact hins key _ (.answer hpc hrx hw hq)
      exact hres.of_kmod_eq (os₁.appendPolicy_kmod inp ls)
  | upcall hpc hurx hdrain =>
      cases drainUpcall_cases hdrain with
      | resolved hv hr =>
          exact h.resolveAll hr fun id hid key hq => by
            obtain rfl := List.mem_singleton.mp hid
            exact hins key _ (.upcall hpc hurx hv hq)
      | asked => exact h
  | @effect op rest extra next os' d' hpc hop =>
      have hfst : (op.run inp os d).1 = os' := by rw [hop]
      exact hfst ▸ Os.Module.run h (fun _ _ => hempty) (fun _ _ hk => hk) (fun _ hk => hk) op
  | packet hpc hpkt hr =>
      have hcase := hr ▸ handlePacket_cases inp os d _ _
      cases hcase with
      | unjudged | dns | fast => exact h
      | @slow f kern _ hparse hdns hsrc hopens hlookup hkern hslow =>
          cases hslow with
          | @settled v _ _ hv hpush =>
              obtain ⟨rfl, -⟩ | ⟨path, hexe, hmode, rfl, -⟩ := pushSettled_cases hpush
              · exact h
              · rcases Os.kernIoctl_cases os kern (inp.ioctl 1) fun k =>
                  pushVerdict k f.proto f.dst f.dport path v (inp.memory 0) with
                  ⟨k, hk, -, heq⟩ | ⟨heq, -⟩
                · have hlive := hkern.live ⟨k, hk⟩
                  rw [heq]
                  rintro _ ⟨⟩
                  rcases k.verdictPush_cases f.proto f.dst f.dport v (utf8Bytes path) (inp.memory 0)
                    with hpush | hpush <;> rw [pushVerdict, hpush]
                  · exact h k hk.kmod
                  · exact hins _ v (.packet hpc hpkt hparse hsrc hmode hexe hv hlive) _ _ (h k hk.kmod)
                · rw [heq]
                  exact h
          | held => exact h
          | learned => exact h.of_kmod_eq (os.appendPolicy_kmod inp _)

/-! ## the system -/

omit [Casing] in
/-- Nothing around the main thread inserts an entry. -/
theorem Outside.cache {w w' : World} {ev : Event} (hout : Outside w ev w' o) (h : w.os.Cache P)
    (hempty : P Table.empty) : w'.os.Cache P := by
  cases hout with
  | loadModule =>
      rintro _ ⟨⟩
      exact hempty
  | unloadModule => rintro _ ⟨⟩
  | crash => exact Os.Module.closeAll h (fun _ hk => hk) _
  | readerEnd => exact Os.Module.closed h fun _ hk => hk
  | @readerRead d i r k k' q _ hd hr hreach hread =>
      rintro _ ⟨⟩
      have hframe := k.read_frame
      rw [hread] at hframe
      rw [hframe.1]
      exact h k (Os.reach_eq_some.mp hreach).2
  | @hook so sa memory k k' r hk hr =>
      rintro _ ⟨⟩
      have hframe := k.checkConnect_frame so sa memory (w.os.now / 1000)
      rw [hr] at hframe
      rw [hframe.1]
      exact h k hk
  | setFailmode =>
      intro k' hk'
      obtain ⟨k, hk, rfl⟩ := Option.map_eq_some_iff.mp hk'
      exact h k hk
  | kernelReset =>
      intro k' hk'
      obtain ⟨k, hk, rfl⟩ := Option.map_eq_some_iff.mp hk'
      exact hempty
  | startDaemon | signal | promptDone | readerSend | noHook | editPolicy | changeEnv | wait |
    pfAnchor => exact h

/-- A step inserts nothing but what `Inserts` lists. -/
theorem step_cache {w w' : World} {ev : Event} (h : w.step ev = some (w', o)) (hinv : w.os.Cache P)
    (hempty : P Table.empty) (hins : ∀ inp d, ev = .daemon inp → w.daemon = some d →
      ∀ key v, Inserts inp w.os d key v →
        ∀ t memory, P t → P (VCache.cacheInsert t memory key v)) : w'.os.Cache P := by
  obtain ⟨inp, d, rfl, hd, hmain⟩ | hout := step_cases h
  · exact hmain.cache hinv hempty (hins inp d rfl hd)
  · exact hout.cache hinv hempty

end Pfsnitch
