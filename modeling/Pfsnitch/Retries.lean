import Pfsnitch.Kernel.Miss
import Pfsnitch.Kernel.Traffic

/-!
# Pfsnitch.Retries

A program that was told to try again, and its retry.

Resolving a request files its verdict, so that the retry finds it; but a full cache takes
no new entry, and the request is gone all the same.  `resolved_stays_iff` says when a
resolved miss stays resolved: when the verdict's key is in the cache already, or the cache
has room.
-/

namespace Pfsnitch

open Lib

/-! ## the module at work -/

/-- What happens to the module: what happens to its queue, and what the daemon and the
administrator do with the cache and the failmode.

Unloading is left out: the policy is unregistered by then, and its hook is not called. -/
inductive ModuleEvent where
  | queue (ev : TrafficEvent)
  | push (proto : UInt8) (addr : IpAddr) (fport : UInt16) (v : KVerdict) (path : List UInt8)
      (memory : Bool)
  | flush
  | failmode (m : FailMode)

namespace Traffic

/-- One event at the module. -/
def moduleStep (q : Traffic) : ModuleEvent → Option (Traffic × List HookResult)
  | .queue ev => q.step ev
  | .push proto addr fport v path memory =>
    some ({ q with kmod := q.kmod.verdictPush proto addr fport v path memory }, [])
  | .flush => some ({ q with kmod := q.kmod.verdictFlush }, [])
  | .failmode m => some ({ q with kmod := { q.kmod with failmode := m } }, [])

/-- A state some run reaches from a freshly loaded module. -/
def ModuleReachable (q : Traffic) : Prop := ∃ q₀, q₀.Initial ∧ Run moduleStep (fun _ _ => True) q₀ q

end Traffic

/-! ## what is claimed -/

/-- How the hook answers on a cached verdict. -/
def KVerdict.answer : KVerdict → HookResult
  | .allow => .pass
  | .deny => .eperm

/-- A verdict for the key is pushed. -/
def ModuleEvent.Pushes (key : VKey) : ModuleEvent → Prop
  | .push proto addr fport _ path _ => key = ⟨proto, addr, fport, path.takeWhile (· ≠ 0)⟩
  | _ => False

/-- Datagrams of the key's binary to its destination are answered so. -/
def Answered (q : Traffic) (key : VKey) (P : HookResult → Prop) : Prop :=
  ∀ (so : Socket) (info : PfsnInfo) (memory : Bool), so.soType = .dgram → so.label = some info →
    info.path = key.path → P (q.kmod.checkConnect so (.inet key.addr key.fport) memory q.now).1

/-- Until the cache is flushed, the key is not asked about again, and until another verdict for
it is pushed, it is answered by this one. -/
structure StaysResolved (q : Traffic) (key : VKey) (v : KVerdict) : Prop where
  decided : ∀ q', Run Traffic.moduleStep (fun _ ev => ev ≠ .flush) q q' →
    Answered q' key (· ≠ .eagain)
  verdict : ∀ q', Run Traffic.moduleStep (fun _ ev => ev ≠ .flush ∧ ¬ ev.Pushes key) q q' →
    Answered q' key (· = v.answer)

/-! ## what the queue holds -/

/-- The hook asks about a key. -/
structure Askable (key : VKey) : Prop where
  udp : key.proto = IPPROTO_UDP
  governed : hookLoopback key.addr = false
  named : key.path ≠ []
  fits : key.path.length < 1024
  asked : key.fport ≠ 53

/-- A loaded module: its queue is sound and holds questions of the hook. -/
structure KMod.Orderly (k : KMod) : Prop where
  sound : k.Sound
  loaded : k.unloading = false
  asks : ∀ r ∈ k.reqs, Askable r.key

section Step

variable {k k' : KMod} {q q' : Traffic} {key : VKey} {ev : ModuleEvent} {o : List HookResult}

/-! ## what a step does -/

/-- Nothing is decided and nothing new is asked. -/
structure QuietStep (k k' : KMod) : Prop where
  cache : k'.cache = k.cache
  unloading : k'.unloading = k.unloading
  keys : k'.reqs.map (·.key) ⊆ k.reqs.map (·.key)
  sound : k.Sound → k'.Sound

theorem QuietStep.of_eq (hreqs : k'.reqs = k.reqs) (hcache : k'.cache = k.cache)
    (hunl : k'.unloading = k.unloading) (hcount : k'.nreq = k.nreq)
    (hnext : k'.nextId = k.nextId) : QuietStep k k' where
  cache := hcache
  unloading := hunl
  keys := by rw [hreqs]; exact List.Subset.refl _
  sound h := h.congr (by rw [hreqs]) (by rw [hreqs]) hnext hcount

/-- What one event can do to the module. -/
inductive ModuleCase (q : Traffic) (k' : KMod) : ModuleEvent → Prop
  | hook (so : Socket) (sa : SockAddr) (memory : Bool)
      (heq : k' = (q.kmod.checkConnect so sa memory q.now).2) :
      ModuleCase q k' (.queue (.hook so sa memory))
  | resolve (id : Nat) (v : KVerdict) (memory : Bool) (heq : k' = q.kmod.resolve id v memory) :
      ModuleCase q k' (.queue (.resolve id v memory))
  | push {proto : UInt8} {addr : IpAddr} {fport : UInt16} {v : KVerdict} {path : List UInt8}
      {memory : Bool} (heq : k' = q.kmod.verdictPush proto addr fport v path memory) :
      ModuleCase q k' (.push proto addr fport v path memory)
  | flush (heq : k' = q.kmod.verdictFlush) : ModuleCase q k' .flush
  | quiet {ev : ModuleEvent} (h : QuietStep q.kmod k') : ModuleCase q k' ev

theorem moduleStep_cases (hstep : q.moduleStep ev = some (q', o)) : ModuleCase q q'.kmod ev := by
  cases ev with
  | queue ev =>
      cases ev with
      | hook so sa memory =>
          obtain ⟨rfl, -⟩ := Prod.mk.inj (Option.some.inj hstep)
          exact .hook so sa memory rfl
      | read =>
          simp only [Traffic.moduleStep, Traffic.step] at hstep
          split at hstep
          · rename_i r k hread
            obtain ⟨rfl, -⟩ := Prod.mk.inj (Option.some.inj hstep)
            have hsound : q.kmod.Sound → k.Sound := fun h => by
              have hkept := h.read
              rwa [hread] at hkept
            obtain ⟨-, -, rfl⟩ := KMod.read_event hread
            refine .quiet ⟨rfl, rfl, ?_, hsound⟩
            rw [KMod.map_mark _ _ _ _ fun _ => rfl]
            exact List.Subset.refl _
          · cases hstep
      | copied i fault =>
          simp only [Traffic.moduleStep, Traffic.step] at hstep
          split at hstep
          · rename_i id _
            split at hstep
            · obtain ⟨rfl, -⟩ := Prod.mk.inj (Option.some.inj hstep)
              refine .quiet ⟨rfl, rfl, ?_, fun h => h.redeliver id⟩
              change (KMod.redeliverIn id q.kmod.reqs).map _ ⊆ _
              rw [KMod.map_redeliverIn _ _ _ fun _ => rfl]
              exact List.Subset.refl _
            · obtain ⟨rfl, -⟩ := Prod.mk.inj (Option.some.inj hstep)
              exact .quiet (.of_eq rfl rfl rfl rfl rfl)
          · cases hstep
      | resolve id v memory =>
          obtain ⟨rfl, -⟩ := Prod.mk.inj (Option.some.inj hstep)
          exact .resolve id v memory rfl
      | gc =>
          obtain ⟨rfl, -⟩ := Prod.mk.inj (Option.some.inj hstep)
          exact .quiet ⟨rfl, rfl, ((q.kmod.reqGc_sublist q.now).map _).subset,
            fun h => h.reqGc q.now⟩
      | upcallSet | close | wait =>
          obtain ⟨rfl, -⟩ := Prod.mk.inj (Option.some.inj hstep)
          exact .quiet (.of_eq rfl rfl rfl rfl rfl)
  | push proto addr fport v path memory =>
      obtain ⟨rfl, -⟩ := Prod.mk.inj (Option.some.inj hstep)
      exact .push rfl
  | flush =>
      obtain ⟨rfl, -⟩ := Prod.mk.inj (Option.some.inj hstep)
      exact .flush rfl
  | failmode m =>
      obtain ⟨rfl, -⟩ := Prod.mk.inj (Option.some.inj hstep)
      exact .quiet (.of_eq rfl rfl rfl rfl rfl)

/-! ## the queue -/

/-- An upcall queues nothing but its own key. -/
theorem upcall_awaits {proto : UInt8} {addr : IpAddr} {port : UInt16} {info : PfsnInfo}
    {nonblock memory : Bool} {now : Nat}
    (h : (k.upcall proto addr port info nonblock memory now).2.Awaits key) :
    k.Awaits key ∨ key = ⟨proto, addr, port, info.path⟩ ∧ info.path.length < 1024 := by
  obtain ⟨r, hr, rfl⟩ := h
  have old : ∀ l : List Req, l ⊆ k.reqs → r ∈ l → k.Awaits r.key :=
    fun l hsub hr => ⟨r, hsub hr, rfl⟩
  unfold KMod.upcall at hr
  extract_lets key' swept at hr
  split at hr
  · exact .inl (old _ (List.Subset.refl _) hr)
  · rename_i hpath
    split at hr
    · exact .inl (old _ (List.Subset.refl _) hr)
    · split at hr
      · exact .inl (old _ (List.Subset.refl _) hr)
      · split at hr
        · exact .inl (old _ (List.Subset.refl _) hr)
        · split at hr
          · exact .inl (old _ (k.reqGc_sublist now).subset hr)
          · obtain hr | hr := List.mem_append.mp hr
            · exact .inl (old _ (k.reqGc_sublist now).subset hr)
            · obtain rfl := List.mem_singleton.mp hr
              exact .inr ⟨rfl, Nat.lt_of_not_le fun hlong => hpath (.inr hlong)⟩

/-- A hook call queues nothing but a question it has no verdict on. -/
theorem checkConnect_awaits {so : Socket} {sa : SockAddr} {memory : Bool} {now : Nat}
    (h : (k.checkConnect so sa memory now).2.Awaits key) :
    k.Awaits key ∨ Askable key ∧ k.cache.lookup key = none := by
  obtain ⟨-, heq⟩ | ⟨addr, port, info, rfl, hmiss⟩ := k.checkConnect_misses so sa memory now
  · rw [heq] at h
    exact .inl h
  · rw [hmiss.checkConnect] at h
    obtain hold | ⟨rfl, hlen⟩ := upcall_awaits h
    · exact .inl hold
    · exact .inr ⟨⟨rfl, hmiss.governed, hmiss.named, hlen, hmiss.asked⟩, hmiss.uncached⟩

/-- Where no key is new, none is awaited anew. -/
theorem awaits_of_keys (hsub : k'.reqs.map (·.key) ⊆ k.reqs.map (·.key)) (h : k'.Awaits key) :
    k.Awaits key := by
  obtain ⟨r, hr, rfl⟩ := h
  exact List.mem_map.mp (hsub (List.mem_map_of_mem hr))

theorem resolve_awaits {id : Nat} {v : KVerdict} {memory : Bool}
    (h : (k.resolve id v memory).Awaits key) : k.Awaits key := by
  obtain ⟨-, heq⟩ | ⟨r, -, -, heq⟩ := k.resolve_step id v memory <;> rw [heq] at h
  · exact h
  · exact awaits_of_keys (List.eraseP_sublist.map _).subset h

theorem verdictPush_awaits {proto : UInt8} {addr : IpAddr} {fport : UInt16} {v : KVerdict}
    {path : List UInt8} {memory : Bool}
    (h : (k.verdictPush proto addr fport v path memory).Awaits key) : k.Awaits key := by
  obtain heq | heq := k.verdictPush_cases proto addr fport v path memory <;> rw [heq] at h <;>
    exact h

/-- A step queues nothing but a question the hook has no verdict on. -/
theorem moduleStep_awaits (hstep : q.moduleStep ev = some (q', o)) (h : q'.kmod.Awaits key) :
    q.kmod.Awaits key ∨ Askable key ∧ q.kmod.cache.lookup key = none := by
  cases moduleStep_cases hstep with
  | hook so sa memory heq => exact checkConnect_awaits (heq ▸ h)
  | resolve id v memory heq => exact .inl (resolve_awaits (heq ▸ h))
  | push heq => exact .inl (verdictPush_awaits (heq ▸ h))
  | flush heq =>
      rw [heq] at h
      exact .inl h
  | quiet hquiet => exact .inl (awaits_of_keys hquiet.keys h)

theorem checkConnect_unloading {so : Socket} {sa : SockAddr} {memory : Bool} {now : Nat} :
    (k.checkConnect so sa memory now).2.unloading = k.unloading := by
  have hstep := k.checkConnect_step so sa memory now
  generalize k.checkConnect so sa memory now = r at hstep
  cases hstep <;> rfl

/-- A step leaves a loaded module sound. -/
theorem moduleStep_orderly (hstep : q.moduleStep ev = some (q', o)) (h : q.kmod.Orderly) :
    q'.kmod.Orderly := by
  have hasks : ∀ r ∈ q'.kmod.reqs, Askable r.key := by
    intro r hr
    obtain ⟨s, hs, hkey⟩ | ⟨hask, -⟩ := moduleStep_awaits hstep ⟨r, hr, rfl⟩
    · exact hkey ▸ h.asks s hs
    · exact hask
  cases moduleStep_cases hstep with
  | hook so sa memory heq =>
      exact ⟨heq ▸ h.sound.checkConnect .., heq ▸ checkConnect_unloading.trans h.loaded, hasks⟩
  | resolve id v memory heq =>
      refine ⟨heq ▸ h.sound.resolve .., ?_, hasks⟩
      obtain ⟨-, hsame⟩ | ⟨r, -, -, hsame⟩ := q.kmod.resolve_step id v memory <;>
        rw [heq, hsame] <;> exact h.loaded
  | @push proto addr fport v path memory heq =>
      refine ⟨heq ▸ h.sound.verdictPush .., ?_, hasks⟩
      obtain hsame | hsame := q.kmod.verdictPush_cases proto addr fport v path memory <;>
        rw [heq, hsame] <;> exact h.loaded
  | flush heq => exact ⟨heq ▸ h.sound.congr rfl rfl rfl rfl, heq ▸ h.loaded, hasks⟩
  | quiet hquiet => exact ⟨hquiet.sound h.sound, hquiet.unloading.trans h.loaded, hasks⟩

/-! ## the cache -/

/-- Without a flush, only a verdict for the key changes what is cached for it. -/
theorem moduleStep_lookup (hstep : q.moduleStep ev = some (q', o)) (hflush : ev ≠ .flush) :
    q'.kmod.cache.lookup key = q.kmod.cache.lookup key ∨
      (q'.kmod.cache.lookup key).isSome ∧ (q.kmod.Awaits key ∨ ev.Pushes key) := by
  have inserted : ∀ (memory : Bool) (key' : VKey) (v : KVerdict),
      (q.kmod.cache.cacheInsert memory key' v).lookup key = q.kmod.cache.lookup key ∨
        key = key' ∧ ((q.kmod.cache.cacheInsert memory key' v).lookup key).isSome := by
    intro memory key' v
    obtain heq | ⟨hkey, heq⟩ := q.kmod.cache.lookup_cacheInsert memory key' key v
    · exact .inl heq
    · exact .inr ⟨hkey, by rw [heq]; rfl⟩
  cases moduleStep_cases hstep with
  | hook so sa memory heq =>
      rw [heq, (q.kmod.checkConnect_frame so sa memory q.now).1]
      exact .inl rfl
  | resolve id v memory heq =>
      obtain ⟨-, hsame⟩ | ⟨r, hr, -, hfiled⟩ := q.kmod.resolve_step id v memory
      · rw [heq, hsame]
        exact .inl rfl
      · rw [heq, hfiled]
        obtain hsame | ⟨rfl, hsome⟩ := inserted memory r.key v
        · exact .inl hsame
        · exact .inr ⟨hsome, .inl ⟨r, hr, rfl⟩⟩
  | @push proto addr fport v path memory heq =>
      obtain hsame | hfiled := q.kmod.verdictPush_cases proto addr fport v path memory
      · rw [heq, hsame]
        exact .inl rfl
      · rw [heq, hfiled]
        obtain hsame | ⟨hkey, hsome⟩ := inserted memory _ v
        · exact .inl hsame
        · exact .inr ⟨hsome, .inr hkey⟩
  | flush => exact absurd rfl hflush
  | quiet hquiet => exact .inl (by rw [hquiet.cache])

/-- The key has a verdict in the cache, one that `P` holds of, and is not awaiting one. -/
def Filed (q : Traffic) (key : VKey) (P : KVerdict → Prop) : Prop :=
  (∃ v, q.kmod.cache.lookup key = some v ∧ P v) ∧ ¬ q.kmod.Awaits key

/-- What is settled is not asked again. -/
theorem Filed.not_awaits {P : KVerdict → Prop} (h : Filed q key P)
    (hstep : q.moduleStep ev = some (q', o)) : ¬ q'.kmod.Awaits key := by
  intro hawaits
  obtain ⟨⟨v, hv, -⟩, hno⟩ := h
  obtain hold | ⟨-, hnone⟩ := moduleStep_awaits hstep hawaits
  · exact hno hold
  · rw [hv] at hnone
    cases hnone

/-- Without a flush it stays settled. -/
theorem settled_run (h : Filed q key fun _ => True)
    (hrun : Run Traffic.moduleStep (fun _ ev => ev ≠ .flush) q q') :
    Filed q' key fun _ => True := by
  refine hrun.invariant (P := fun q => Filed q key fun _ => True) h ?_
  intro t ev u o ht hflush hstep
  refine ⟨?_, ht.not_awaits hstep⟩
  obtain hsame | ⟨hsome, -⟩ := moduleStep_lookup hstep hflush
  · rw [hsame]
    exact ht.1
  · obtain ⟨v, hv⟩ := Option.isSome_iff_exists.mp hsome
    exact ⟨v, hv, trivial⟩

/-- And without another verdict for the key, it stays settled in the same way. -/
theorem settled_run_of_no_push {v : KVerdict} (h : Filed q key (· = v))
    (hrun : Run Traffic.moduleStep (fun _ ev => ev ≠ .flush ∧ ¬ ev.Pushes key) q q') :
    Filed q' key (· = v) := by
  refine hrun.invariant (P := fun q => Filed q key (· = v)) h ?_
  intro t ev u o ht hok hstep
  refine ⟨?_, ht.not_awaits hstep⟩
  obtain hsame | ⟨-, hawaits | hpushes⟩ := moduleStep_lookup hstep hok.1
  · rw [hsame]
    exact ht.1
  · exact absurd hawaits ht.2
  · exact absurd hpushes hok.2

/-! ## the retry -/

/-- A cached verdict is the answer. -/
theorem Filed.answered {P : KVerdict → Prop} (h : Filed q key P) (hask : Askable key) :
    Answered q key fun answer => ∃ v, answer = v.answer ∧ P v := by
  intro so info memory hso hlabel hpath
  obtain ⟨⟨v, hv, hP⟩, -⟩ := h
  refine ⟨v, ?_, hP⟩
  have hkey : (⟨IPPROTO_UDP, key.addr, key.fport, info.path⟩ : VKey) = key := by
    rw [← hask.udp, hpath]
  rw [checkConnect_dgram hso hlabel (hpath ▸ hask.named) hask.governed, hkey, hv]
  cases v <;> rfl

theorem KVerdict.answer_ne_eagain (v : KVerdict) : v.answer ≠ .eagain := by cases v <;> nofun

/-- A key that is settled with a verdict stays resolved with it. -/
theorem Filed.staysResolved {v : KVerdict} (h : Filed q key (· = v)) (hask : Askable key) :
    StaysResolved q key v where
  decided q' hrun so info memory hso hlabel hpath := by
    obtain ⟨⟨v', hv', -⟩, hno⟩ := h
    have hsome : Filed q key fun _ => True := ⟨⟨v', hv', trivial⟩, hno⟩
    obtain ⟨later, hlater, -⟩ :=
      (settled_run hsome hrun).answered hask so info memory hso hlabel hpath
    exact hlater ▸ later.answer_ne_eagain
  verdict q' hrun so info memory hso hlabel hpath := by
    obtain ⟨_, hv', rfl⟩ :=
      (settled_run_of_no_push h hrun).answered hask so info memory hso hlabel hpath
    exact hv'

/-- The request resolved is the only one for its key. -/
theorem KMod.Sound.resolve_not_awaits (h : k.Sound) {r : Req} (hr : r ∈ k.reqs) (v : KVerdict)
    (memory : Bool) : ¬ (k.resolve r.id v memory).Awaits r.key := by
  rintro ⟨s, hs, hkey⟩
  obtain ⟨hsk, hid⟩ := h.mem_resolve.mp hs
  exact hid (congrArg Req.id (List.inj_on_of_nodup_map h.keys hsk hr hkey))

/-- Resolving a request files its verdict and drops it. -/
theorem KMod.Sound.resolve_eq (h : k.Sound) {r : Req} (hr : r ∈ k.reqs) (v : KVerdict)
    (memory : Bool) :
    (k.resolve r.id v memory).cache = k.cache.cacheInsert memory r.key v ∧
      (k.resolve r.id v memory).nreq = k.nreq - 1 ∧
      (k.resolve r.id v memory).unloading = k.unloading ∧
      (k.resolve r.id v memory).upcallOn = k.upcallOn := by
  obtain ⟨hno, -⟩ | ⟨s, hs, hid, heq⟩ := k.resolve_step r.id v memory
  · exact absurd rfl (hno r hr)
  · obtain rfl := h.eq_of_id hs hr hid
    rw [heq]
    exact ⟨rfl, rfl, rfl, rfl⟩

/-- A full cache takes no new verdict, and the retry is asked again. -/
theorem retry_asks (h : k.Orderly) (hon : k.upcallOn = true) {r : Req} (hr : r ∈ k.reqs)
    (v : KVerdict) (hnew : k.cache.lookup r.key = none) (hfull : PFSN_VMAX ≤ k.cache.count)
    (now : Nat) :
    ((k.resolve r.id v true).checkConnect ⟨.dgram, some ⟨0, 0, r.key.path⟩, false⟩
      (.inet r.key.addr r.key.fport) true now).1 = .eagain := by
  have hask := h.asks r hr
  obtain ⟨hcache, hnreq, hunl, hup⟩ := h.sound.resolve_eq hr v true
  have hkey : (⟨IPPROTO_UDP, r.key.addr, r.key.fport, r.key.path⟩ : VKey) = r.key := by
    rw [← hask.udp]
  have huncached : (k.resolve r.id v true).cache.lookup r.key = none := by
    rw [hcache, VCache.lookup_cacheInsert_of_fits hask.fits, if_neg, hnew]
    rintro ⟨-, hfound | ⟨hroom, -⟩⟩
    · change (k.cache.lookup r.key).isSome at hfound
      rw [hnew] at hfound
      cases hfound
    · exact absurd hfull (Nat.not_le.mpr hroom)
  have hmiss : (k.resolve r.id v true).Misses ⟨.dgram, some ⟨0, 0, r.key.path⟩, false⟩
      r.key.addr r.key.fport ⟨0, 0, r.key.path⟩ :=
    ⟨hup.trans hon, rfl, rfl, hask.named, hask.governed, hask.asked, hkey ▸ huncached⟩
  -- the request that was resolved has left room for another
  have hroom : (k.resolve r.id v true).nreq < PFSN_REQ_MAX := by
    have hpos := List.length_pos_of_mem hr
    have hbound := h.sound.bound
    have hcount := h.sound.count
    omega
  rw [hmiss.checkConnect, KMod.upcall_room hask.named hask.fits (hunl.trans h.loaded)
    (hkey ▸ h.sound.resolve_not_awaits hr v true) hroom]
  rfl

end Step

/-! ## reachable states -/

theorem moduleReachable_orderly {q : Traffic} (h : q.ModuleReachable) : q.kmod.Orderly := by
  obtain ⟨q₀, ⟨m, now, rfl⟩, hrun⟩ := h
  refine hrun.invariant (P := fun q => q.kmod.Orderly) ?_ fun t ev u o ht _ hstep =>
    moduleStep_orderly hstep ht
  exact ⟨KMod.sound_fresh rfl rfl, rfl, by simp⟩

/-- **A resolved miss stays resolved** just when the cache has its key already, or has room. -/
theorem resolved_stays_iff {q : Traffic} (hreach : q.ModuleReachable)
    (hon : q.kmod.upcallOn = true) {r : Req} (hr : r ∈ q.kmod.reqs) (v : KVerdict) :
    StaysResolved { q with kmod := q.kmod.resolve r.id v true } r.key v ↔
      (q.kmod.cache.lookup r.key).isSome ∨ q.kmod.cache.count < PFSN_VMAX := by
  have horderly := moduleReachable_orderly hreach
  have hask := horderly.asks r hr
  constructor
  · intro h
    by_contra hno
    obtain ⟨hnew, hfull⟩ := not_or.mp hno
    exact h.decided _ .refl _ _ true rfl rfl rfl (retry_asks horderly hon hr v
      (Option.not_isSome_iff_eq_none.mp hnew) (Nat.not_lt.mp hfull) _)
  · intro h
    refine Filed.staysResolved ⟨⟨v, ?_, rfl⟩, horderly.sound.resolve_not_awaits hr v true⟩ hask
    change (q.kmod.resolve r.id v true).cache.lookup r.key = some v
    rw [(horderly.sound.resolve_eq hr v true).1, VCache.lookup_cacheInsert_of_fits hask.fits]
    exact if_pos ⟨rfl, h.imp id fun hroom => ⟨hroom, rfl⟩⟩

/-! ## a cache with room, and a full one -/

/-- The key of the `n`-th TCP verdict that is pushed for `/a`. -/
def pushedKey (n : Nat) : VKey :=
  ⟨IPPROTO_TCP, .v4 ⟨192, 0, 2, 1⟩, UInt16.ofNat n, [0x2f, 0x61]⟩

/-- A module to which `n` TCP verdicts have been pushed. -/
def KMod.pushed : Nat → KMod
  | 0 => {}
  | n + 1 => (pushed n).verdictPush IPPROTO_TCP (.v4 ⟨192, 0, 2, 1⟩) (UInt16.ofNat n) .allow
      [0x2f, 0x61] true

/-- Then the upcall is turned on and `/a` sends to port 443. -/
def Traffic.asked (n : Nat) : Traffic where
  kmod := (((KMod.pushed n).upcallSet true).checkConnect socketOfA
    (.inet (.v4 ⟨192, 0, 2, 1⟩) 443) true 0).2
  copying := []
  now := 0
  log := [.arrived 1]

/-- The request of `/a`. -/
def reqOfA : Req :=
  ⟨1, ⟨IPPROTO_UDP, .v4 ⟨192, 0, 2, 1⟩, 443, [0x2f, 0x61]⟩, false, false, 100, 0, 0⟩

theorem pushed_succ (n : Nat) : KMod.pushed (n + 1) =
    { KMod.pushed n with cache := (KMod.pushed n).cache.cacheInsert true (pushedKey n) .allow } :=
  rfl

theorem pushed_frame (n : Nat) : KMod.pushed n = { cache := (KMod.pushed n).cache } := by
  induction n with
  | zero => rfl
  | succ n ih => rw [pushed_succ, ih]

/-- As long as there is room each push adds an entry. -/
theorem pushed_cache {n : Nat} (h : n ≤ PFSN_VMAX) :
    (KMod.pushed n).cache.count = n ∧
      ∀ key, (∀ i < n, key ≠ pushedKey i) → (KMod.pushed n).cache.lookup key = none := by
  induction n with
  | zero => exact ⟨rfl, fun _ _ => rfl⟩
  | succ n ih =>
      obtain ⟨hcount, hnone⟩ := ih (Nat.le_of_succ_le h)
      have hnew : (KMod.pushed n).cache.lookup (pushedKey n) = none := by
        refine hnone _ fun i hi heq => ?_
        have hport := congrArg (fun key => key.fport.toNat) heq
        simp only [pushedKey, UInt16.toNat_ofNat', PFSN_VMAX] at hport h
        omega
      have hfits : (pushedKey n).path.length < 1024 := show 2 < 1024 by decide
      rw [pushed_succ]
      refine ⟨?_, fun key hkey => ?_⟩
      · change ((KMod.pushed n).cache.cacheInsert true (pushedKey n) .allow).count = n + 1
        have hroom : (KMod.pushed n).cache.count < PFSN_VMAX := hcount.symm ▸ h
        rw [VCache.cacheInsert, if_neg (by omega), Table.count_insert hnew hroom, hcount]
      · change ((KMod.pushed n).cache.cacheInsert true (pushedKey n) .allow).lookup key = none
        rw [VCache.lookup_cacheInsert_of_fits hfits,
          if_neg fun heq => hkey n (Nat.lt_succ_self n) heq.1]
        exact hnone key fun i hi => hkey i (Nat.lt_succ_of_lt hi)

theorem pushed_lookup {n : Nat} (h : n ≤ PFSN_VMAX) :
    (KMod.pushed n).cache.lookup reqOfA.key = none := by
  refine (pushed_cache h).2 _ fun i _ heq => ?_
  have hproto : IPPROTO_UDP = IPPROTO_TCP := congrArg VKey.proto heq
  exact absurd hproto (by decide)

/-- The send of `/a` is put to the daemon. -/
theorem asked_kmod {n : Nat} (h : n ≤ PFSN_VMAX) :
    (Traffic.asked n).kmod = { KMod.pushed n with
      upcallOn := true
      reqs := [reqOfA]
      nextId := 2
      nreq := 1 } := by
  have hmiss : ((KMod.pushed n).upcallSet true).Misses socketOfA (.v4 ⟨192, 0, 2, 1⟩) 443
      ⟨100, 0, [0x2f, 0x61]⟩ :=
    ⟨rfl, rfl, rfl, by decide, rfl, by decide, pushed_lookup h⟩
  rw [Traffic.asked, hmiss.checkConnect, pushed_frame]
  rfl

theorem asked_on {n : Nat} (h : n ≤ PFSN_VMAX) : (Traffic.asked n).kmod.upcallOn = true := by
  rw [asked_kmod h]

theorem asked_mem {n : Nat} (h : n ≤ PFSN_VMAX) : reqOfA ∈ (Traffic.asked n).kmod.reqs := by
  rw [asked_kmod h]
  exact List.mem_singleton_self _

theorem asked_cache {n : Nat} (h : n ≤ PFSN_VMAX) :
    (Traffic.asked n).kmod.cache.lookup reqOfA.key = none ∧
      (Traffic.asked n).kmod.cache.count = n := by
  rw [asked_kmod h]
  exact ⟨pushed_lookup h, (pushed_cache h).1⟩

theorem asked_reachable {n : Nat} (h : n ≤ PFSN_VMAX) : (Traffic.asked n).ModuleReachable := by
  refine ⟨⟨{}, [], 0, []⟩, ⟨.fopen, 0, rfl⟩, ?_⟩
  have hpushed : ∀ n, Run Traffic.moduleStep (fun _ _ => True) ⟨{}, [], 0, []⟩
      ⟨KMod.pushed n, [], 0, []⟩ := by
    intro n
    induction n with
    | zero => exact .refl
    | succ n ih =>
        exact ih.tail (i := .push IPPROTO_TCP (.v4 ⟨192, 0, 2, 1⟩) (UInt16.ofNat n) .allow
          [0x2f, 0x61] true) trivial rfl
  have hupcall := (hpushed n).tail (i := .queue (.upcallSet true)) trivial rfl
  have hnext : (KMod.pushed n).nextId = 1 := by rw [pushed_frame]
  have hnext' : (Traffic.asked n).kmod.nextId = 2 := by rw [asked_kmod h]
  refine hupcall.tail (i := .queue (.hook socketOfA (.inet (.v4 ⟨192, 0, 2, 1⟩) 443) true))
    (o := [(((KMod.pushed n).upcallSet true).checkConnect socketOfA
      (.inet (.v4 ⟨192, 0, 2, 1⟩) 443) true 0).1]) trivial ?_
  simp only [Traffic.moduleStep, Traffic.step, Option.some.injEq, Prod.mk.injEq, and_true]
  rw [if_neg]
  · rw [Traffic.asked]
    simp [KMod.upcallSet, hnext]
  · intro heq
    have htwo : (Traffic.asked n).kmod.nextId = (KMod.pushed n).nextId := heq
    omega

/-- Where the cache has room the retry of `/a` is answered. -/
theorem resolved_stays_first : StaysResolved
    { Traffic.asked 0 with kmod := (Traffic.asked 0).kmod.resolve reqOfA.id .allow true }
    reqOfA.key .allow :=
  have hroom : 0 ≤ PFSN_VMAX := Nat.zero_le _
  (resolved_stays_iff (asked_reachable hroom) (asked_on hroom) (asked_mem hroom) .allow).mpr
    (.inr (by rw [(asked_cache hroom).2]; decide))

/-- Behind 8192 TCP verdicts it is told to try again, though it was allowed. -/
theorem resolved_asks_again : ¬ ∀ (q : Traffic), q.ModuleReachable → q.kmod.upcallOn = true →
    ∀ r ∈ q.kmod.reqs, ∀ v,
      StaysResolved { q with kmod := q.kmod.resolve r.id v true } r.key v := by
  intro h
  obtain ⟨n, hn⟩ : ∃ n, n = PFSN_VMAX := ⟨_, rfl⟩
  have hfull : n ≤ PFSN_VMAX := hn.le
  have hstays := h _ (asked_reachable hfull) (asked_on hfull) reqOfA (asked_mem hfull) .allow
  exact hstays.decided _ .refl _ _ true rfl rfl rfl
    (retry_asks (moduleReachable_orderly (asked_reachable hfull)) (asked_on hfull)
      (asked_mem hfull) .allow (asked_cache hfull).1
      (hn.symm.le.trans (asked_cache hfull).2.ge) _)

end Pfsnitch
