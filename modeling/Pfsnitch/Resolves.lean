import Pfsnitch.Daemon.Misses

/-!
# Pfsnitch.Resolves

Whose request a resolve settles.

The daemon knows a miss by its id, and the module counts its ids from 1 again
each time it is loaded.  In a run that turns the upcall of a newly loaded module
on only when the daemon knows no miss (`FreshIds`), a resolve settles the very
request that the daemon has read (`resolve_settles_own`); a reader that is still
holding a miss of the module before is enough to break it
(`resolve_settles_other`).
-/

namespace Pfsnitch

open Lib

variable [Casing]

variable {w w' : World} {d d' : Daemon} {ev : Event} {o : List Output} {inp : Input} {os : Os}
  {k k' : KMod} {e : KernEvent}

/-- The upcall is turned on in a module that has queued nothing yet only when the
daemon knows no miss. -/
def FreshIds (w : World) : Event → Prop
  | .daemon _ => ∀ d k, w.daemon = some d → d.pc.ops.head? = some (.setUpcall true) →
      w.os.Device d.kern k → k.nextId = 1 → ∀ e, ¬ d.Knows e
  | _ => True

omit [Casing] in
/-- An event is about what is filed under a key. -/
def KernEvent.Asks (e : KernEvent) (key : VKey) : Prop :=
  key.proto = e.proto ∧ key.addr = e.dst ∧ key.fport = e.dport ∧ utf8Lossy key.path = e.path

omit [Casing] in
theorem Req.event_asks (r : Req) : r.event.Asks r.key := ⟨rfl, rfl, rfl, rfl⟩

/-! ## the ids that the daemon knows -/

omit [Casing] in
/-- The module has been asked: its upcall is on, or it has queued a request. -/
def KMod.Asked (k : KMod) : Prop := k.upcallOn = true ∨ k.nextId ≠ 1

omit [Casing] in
/-- An id is spent, and a request that is queued under it is the event's. -/
def KMod.Owns (k : KMod) (e : KernEvent) : Prop :=
  e.id < k.nextId ∧ ∀ r ∈ k.reqs, r.id = e.id → r.event = e

omit [Casing] in
/-- The module after it has at most dropped, marked or reset something. -/
structure KMod.Within (k' k : KMod) : Prop where
  nextId : k'.nextId = k.nextId
  reqs : ∀ r ∈ k'.reqs, ∃ s ∈ k.reqs, s.id = r.id ∧ s.event = r.event

omit [Casing] in
theorem KMod.Within.refl (k : KMod) : k.Within k := ⟨rfl, fun r hr => ⟨r, hr, rfl, rfl⟩⟩

omit [Casing] in
theorem KMod.Owns.within (h : k.Owns e) (hk : k'.Within k) : k'.Owns e := by
  refine ⟨hk.nextId ▸ h.1, fun r hr hid => ?_⟩
  obtain ⟨s, hs, hsid, hsev⟩ := hk.reqs r hr
  rw [← hsev]
  exact h.2 s hs (hsid.trans hid)

omit [Casing] in
theorem KMod.mainKept_within (k₀ : KMod) : KMod.MainKept fun k => k.Within k₀ where
  resolve k id v memory h := by
    obtain ⟨-, heq⟩ | ⟨r, -, -, heq⟩ := k.resolve_step id v memory <;> rw [heq]
    · exact h
    · exact ⟨h.nextId, fun s hs => h.reqs s (List.mem_of_mem_eraseP hs)⟩
  verdictPush k proto addr fport v path memory h := by
    obtain heq | heq := k.verdictPush_cases proto addr fport v path memory <;> rw [heq]
    · exact h
    · exact ⟨h.nextId, h.reqs⟩
  verdictFlush _ h := ⟨h.nextId, h.reqs⟩
  upcallSet _ _ h := ⟨h.nextId, h.reqs⟩
  devClose _ h := ⟨h.nextId, h.reqs⟩

omit [Casing] in
theorem KMod.within_read (k : KMod) : k.read.2.Within k := by
  obtain heq | ⟨r, -, -, heq⟩ := k.read_step <;> rw [heq]
  · exact .refl k
  · refine ⟨rfl, fun s hs => ?_⟩
    obtain ⟨s', hs', rfl⟩ := List.mem_map.mp hs
    refine ⟨s', hs', ?_⟩
    split <;> exact ⟨rfl, rfl⟩

omit [Casing] in
/-- With the upcall off the hook asks nothing. -/
theorem KMod.checkConnect_of_off (h : k.upcallOn = false) (so : Socket) (sa : SockAddr)
    (memory : Bool) (now : Nat) : (k.checkConnect so sa memory now).2 = k := by
  obtain heq | ⟨_, -, heq⟩ | ⟨_, _, _, hon, -⟩ := k.checkConnect_cases so sa memory now
  · rw [heq]
  · rw [heq]
  · rw [h] at hon
    cases hon

omit [Casing] in
/-- The hook queues under an id that is not spent. -/
theorem KMod.Owns.checkConnect (h : k.Owns e) (so : Socket) (sa : SockAddr) (memory : Bool)
    (now : Nat) : (k.checkConnect so sa memory now).2.Owns e := by
  have hstep := k.checkConnect_step so sa memory now
  generalize k.checkConnect so sa memory now = res at hstep ⊢
  have hgc : (k.reqGc now).Owns e :=
    ⟨h.1, fun r hr => h.2 r ((k.reqGc_sublist now).subset hr)⟩
  cases hstep with
  | refused => exact h
  | swept => exact hgc
  | queued =>
      refine ⟨Nat.lt_succ_of_lt h.1, fun r hr hid => ?_⟩
      obtain hr | hr := List.mem_append.mp hr
      · exact hgc.2 r hr hid
      · rw [List.mem_singleton.mp hr] at hid
        exact absurd hid (Nat.ne_of_gt h.1)

omit [Casing] in
/-- A request that is read is owned. -/
theorem KMod.owns_read {q : Req} (h : k.Sound) (hread : k.read.1 = .event q) :
    k.read.2.Owns q.event := by
  obtain ⟨-, hq, -⟩ := KMod.read_event (Prod.ext hread rfl : k.read = (.event q, k.read.2))
  have hq := List.mem_of_find?_eq_some hq
  have howns : k.Owns q.event :=
    ⟨h.fresh q.id (List.mem_map_of_mem hq), fun r hr hid => by rw [h.eq_of_id hr hq hid]⟩
  exact howns.within k.within_read

/-- Turning the upcall on through a working handle is what makes a module asked. -/
theorem MainStep.asked (hstep : MainStep inp os d w' o) (hk : os.kmod = some k)
    (hk' : w'.os.kmod = some k') (hasked : k'.Asked) (hno : ¬ k.Asked) :
    d.pc.ops.head? = some (.setUpcall true) ∧ os.Device d.kern k := by
  have hwithin : k'.Within k := by
    refine hstep.module (KMod.mainKept_within k) (fun k₁ hk₁ => ?_) k' hk'
    rw [Option.some.inj (hk₁.symm.trans hk)]
    exact .refl k
  obtain ⟨hoff, hnext⟩ := not_or.mp hno
  have hon : k'.upcallOn = true := hasked.resolve_right (by rwa [hwithin.nextId])
  exact hstep.turned_on hk hk' hon (Bool.eq_false_iff.mpr hoff)

omit [Casing] in
theorem KMod.asked_of_devClose (h : k.devClose.Asked) : k.Asked := by
  obtain hon | hnext := h
  · cases hon
  · exact .inr hnext

omit [Casing] in
/-- Around the main thread a module that is asked was asked before, and goes on
owning what it owned. -/
theorem Outside.asked (hout : Outside w ev w' o) (hk' : w'.os.kmod = some k') (hasked : k'.Asked) :
    w'.os.gen = w.os.gen ∧
      ∃ k, w.os.kmod = some k ∧ k.Asked ∧ ∀ e, k.Owns e → k'.Owns e := by
  have closed : ∀ k : KMod, k' = k.devClose → k.Asked ∧ ∀ e, k.Owns e → k'.Owns e := by
    rintro k rfl
    exact ⟨KMod.asked_of_devClose hasked, fun e h => ⟨h.1, h.2⟩⟩
  cases hout with
  | loadModule =>
      obtain rfl := Option.some.inj hk'
      exact absurd hasked (by simp [KMod.Asked])
  | unloadModule => cases hk'
  | @crash d hd =>
      refine ⟨(closeAll_frame w.os d).gen, ?_⟩
      unfold closeAll at hk'
      split at hk'
      · obtain ⟨k, hk, rfl⟩ := Option.map_eq_some_iff.mp hk'
        exact ⟨k, hk, closed k rfl⟩
      · exact ⟨k', hk', hasked, fun _ => id⟩
  | @readerEnd d i r _ hd hr =>
      refine ⟨Os.closed_gen _ _, ?_⟩
      simp only [dropReader, Os.closed] at hk'
      split at hk'
      · obtain ⟨k, hk, rfl⟩ := Option.map_eq_some_iff.mp hk'
        exact ⟨k, hk, closed k rfl⟩
      · exact ⟨k', hk', hasked, fun _ => id⟩
  | @readerRead d i r k _ q _ hd hr hreach hread =>
      obtain rfl := Option.some.inj hk'
      obtain ⟨hon, -, -⟩ := KMod.read_event hread
      refine ⟨rfl, k, (Os.reach_eq_some.mp hreach).2, .inl hon, fun e howns => ?_⟩
      have hwithin := k.within_read
      rw [hread] at hwithin
      exact howns.within hwithin
  | @hook so sa memory k _ r hk hr =>
      obtain rfl := Option.some.inj hk'
      refine ⟨rfl, k, hk, ?_, fun e howns => ?_⟩
      · by_contra hno
        have hoff := k.checkConnect_of_off (Bool.eq_false_iff.mpr (not_or.mp hno).1) so sa memory
          (w.os.now / 1000)
        rw [hr] at hoff
        exact hno (hoff ▸ hasked)
      · have hkeep := howns.checkConnect so sa memory (w.os.now / 1000)
        rwa [hr] at hkeep
  | setFailmode =>
      obtain ⟨k, hk, rfl⟩ := Option.map_eq_some_iff.mp hk'
      exact ⟨rfl, k, hk, hasked, fun e h => ⟨h.1, h.2⟩⟩
  | kernelReset =>
      obtain ⟨k, hk, rfl⟩ := Option.map_eq_some_iff.mp hk'
      exact ⟨rfl, k, hk, KMod.asked_of_devClose hasked, fun e h => ⟨h.1, h.2⟩⟩
  | startDaemon | signal | promptDone | readerSend | noHook | editPolicy | changeEnv | wait |
    pfAnchor => exact ⟨rfl, k', hk', hasked, fun _ => id⟩

/-- Where what the daemon knows comes from, once the module is asked: the daemon
knew it of the module as it was, or has just read it. -/
theorem step_asked (hstep : w.step ev = some (w', o)) (hok : FreshIds w ev)
    (hk' : w'.os.kmod = some k') (hd' : w'.daemon = some d') (hasked : k'.Asked)
    (he : d'.Knows e) : w'.os.gen = w.os.gen ∧ ∃ k, w.os.kmod = some k ∧
      ((∃ d, w.daemon = some d ∧ d.Knows e ∧ k.Asked ∧ (k.Owns e → k'.Owns e)) ∨
        ∃ q, k' = k.read.2 ∧ k.read.1 = .event q ∧ q.event = e) := by
  obtain ⟨inp, d, rfl, hd, hmain⟩ | hout := step_cases hstep
  · obtain ⟨k, hk⟩ := hmain.loaded hk'
    have hknows := hmain.knows hd' he
    have hwithin : k'.Within k := by
      refine hmain.module (KMod.mainKept_within k) (fun k₁ hk₁ => ?_) k' hk'
      rw [Option.some.inj (hk₁.symm.trans hk)]
      exact .refl k
    refine ⟨hmain.gen, k, hk, .inl ⟨d, hd, hknows, ?_, fun howns => howns.within hwithin⟩⟩
    by_contra hno
    obtain ⟨hhead, hdev⟩ := hmain.asked hk hk' hasked hno
    exact hok d k hd hhead hdev (not_not.mp (not_or.mp hno).2) e hknows
  · obtain ⟨hgen, k, hk, hasked₀, howns⟩ := hout.asked hk' hasked
    refine ⟨hgen, k, hk, ?_⟩
    obtain ⟨d, hd, he₀⟩ | ⟨k₁, q, hk₁, hk₁', hread, hq⟩ := hout.knows hd' he
    · exact .inl ⟨d, hd, he₀, hasked₀, howns e⟩
    · obtain rfl := Option.some.inj (hk.symm.trans hk₁)
      exact .inr ⟨q, Option.some.inj (hk'.symm.trans hk₁'), hread, hq⟩

/-! ## the invariant -/

/-- On the way to `w` a reader read the event off the module as it is loaded in `w`. -/
def ReadHere (w₀ w : World) (e : KernEvent) : Prop :=
  ∃ w₁ w₂ ev o k q, Run World.step FreshIds w₀ w₁ ∧ w₁.step ev = some (w₂, o) ∧
    Run World.step FreshIds w₂ w ∧ w₁.os.gen = w.os.gen ∧ w₁.os.kmod = some k ∧
    w₂.os.kmod = some k.read.2 ∧ k.read.1 = .event q ∧ q.event = e

theorem ReadHere.step {w₀ : World} (h : ReadHere w₀ w e) (hok : FreshIds w ev)
    (hstep : w.step ev = some (w', o)) (hgen : w'.os.gen = w.os.gen) : ReadHere w₀ w' e := by
  obtain ⟨w₁, w₂, ev₁, o₁, k, q, hrun, hread, hrest, hsame, hrec⟩ := h
  exact ⟨w₁, w₂, ev₁, o₁, k, q, hrun, hread, .tail hrest hok hstep, hsame.trans hgen.symm, hrec⟩

/-- The events that the daemon knows are those of the loaded module's requests,
and were read off it. -/
def KnownHere (w₀ w : World) : Prop :=
  ∀ k d, w.os.kmod = some k → w.daemon = some d → k.Asked → ∀ e, d.Knows e →
    k.Owns e ∧ ReadHere w₀ w e

theorem run_knownHere {w₀ : World} (hinit : w₀.Initial) (hrun : Run World.step FreshIds w₀ w) :
    KnownHere w₀ w := by
  have hsound : ∀ {w}, Run World.step FreshIds w₀ w → w.os.Module KMod.Sound :=
    fun hrun => reachable_sound ⟨w₀, hinit, hrun⟩
  induction hrun with
  | refl =>
      intro k d hk
      rw [hinit.1] at hk
      cases hk
  | @tail t u ev o hrun hok hstep ih =>
      intro k' d' hk' hd' hasked e he
      obtain ⟨hgen, k, hk, ⟨d, hd, hknows, hasked₀, hkeep⟩ | ⟨q, rfl, hread, rfl⟩⟩ :=
        step_asked hstep hok hk' hd' hasked he
      · obtain ⟨howns, hhere⟩ := ih k d hk hd hasked₀ e hknows
        exact ⟨hkeep howns, hhere.step hok hstep hgen⟩
      · exact ⟨KMod.owns_read (hsound hrun k hk) hread,
          t, u, ev, o, k, q, hrun, hstep, .refl, hgen.symm, hk, hk', hread, rfl⟩

/-! ## what a resolve settles -/

omit [Casing] in
/-- A module that has queued a request has spent an id. -/
theorem KMod.kept_counted : KMod.Kept fun k => 1 ≤ k.nextId ∧ (k.reqs ≠ [] → k.nextId ≠ 1) where
  fresh := ⟨Nat.le_refl 1, fun h => absurd rfl h⟩
  checkConnect k so sa memory now h := by
    have hstep := k.checkConnect_step so sa memory now
    generalize k.checkConnect so sa memory now = res at hstep ⊢
    cases hstep with
    | refused => exact h
    | swept =>
        refine ⟨h.1, fun hne => h.2 fun hnil => hne ?_⟩
        exact List.sublist_nil.mp (hnil ▸ k.reqGc_sublist now)
    | queued =>
        have hpos := h.1
        exact ⟨Nat.le_succ_of_le hpos, fun _ => Nat.succ_ne_succ_iff.mpr (Nat.ne_of_gt hpos)⟩
  read k h := by
    obtain heq | ⟨r, -, -, heq⟩ := k.read_step <;> rw [heq]
    · exact h
    · exact ⟨h.1, fun hne => h.2 fun hnil => hne (by simp [hnil])⟩
  resolve k id v memory h := by
    obtain ⟨-, heq⟩ | ⟨r, hr, -, heq⟩ := k.resolve_step id v memory <;> rw [heq]
    · exact h
    · exact ⟨h.1, fun _ => h.2 (List.ne_nil_of_mem hr)⟩
  verdictPush k proto addr fport v path memory h := by
    obtain heq | heq := k.verdictPush_cases proto addr fport v path memory <;> rw [heq] <;> exact h
  verdictFlush _ h := h
  upcallSet _ _ h := h
  devClose _ h := h
  setFailmode _ _ h := h

omit [Casing] in
/-- Every lookup stays as it is, or finds a verdict that may have been inserted. -/
def Os.InsertsOnly (os os' : Os) (P : VKey → Prop) : Prop :=
  ∀ k', os'.kmod = some k' → ∃ k, os.kmod = some k ∧
    ∀ key, k'.cache.lookup key = k.cache.lookup key ∨ P key

omit [Casing] in
theorem Os.InsertsOnly.of_kmod_eq {P : VKey → Prop} {os' : Os} (h : os'.kmod = os.kmod) :
    os.InsertsOnly os' P := fun k' hk' => ⟨k', h ▸ hk', fun _ => .inl rfl⟩

omit [Casing] in
/-- Resolving ids inserts under the keys of the requests queued under them. -/
theorem insertsOnly_resolveAll {P : VKey → Prop} {v : KVerdict} {n : Nat} {ids : List Nat}
    {kern kern' : Option Handle} {os' : Os} (hr : resolveAll inp v n ids os kern = (os', kern'))
    (hP : ∀ id ∈ ids, ∀ key, os.Queued kern id key → P key) : os.InsertsOnly os' P := by
  cases hk : os.kmod with
  | none =>
      intro k' hk'
      have hnone : os.Cache fun _ => False := fun k hk₁ => by
        rw [hk] at hk₁
        cases hk₁
      exact (hnone.resolveAll hr (fun _ _ _ _ _ _ h => h) k' hk').elim
  | some k =>
      have hkeep : os'.Cache fun t => ∀ key, t.lookup key = k.cache.lookup key ∨ P key := by
        refine Os.Cache.resolveAll (fun k₁ hk₁ key => ?_) hr fun id hid key hq t memory ht key' => ?_
        · rw [Option.some.inj (hk₁.symm.trans hk)]
          exact .inl rfl
        · obtain heq | ⟨rfl, -⟩ := t.lookup_cacheInsert memory key key' v
          · rw [heq]
            exact ht key'
          · exact .inr (hP id hid key' hq)
      exact fun k' hk' => ⟨k, hk, hkeep k' hk'⟩

/-- A request that is queued under the id of an event that the daemon knows is the
event's, and the event was read off the module as it is loaded. -/
theorem asks_of_queued {w₀ : World} (hinit : w₀.Initial) (hrun : Run World.step FreshIds w₀ w)
    (hd : w.daemon = some d) (he : d.Knows e) {key : VKey} (hq : w.os.Queued d.kern e.id key) :
    e.Asks key ∧ ReadHere w₀ w e := by
  obtain ⟨k, hdev, r, hr, hid, rfl⟩ := hq
  have hspent := (reachable_module ⟨w₀, hinit, hrun⟩ KMod.kept_counted k hdev.kmod).2
    (List.ne_nil_of_mem hr)
  obtain ⟨howns, hhere⟩ := run_knownHere hinit hrun k d hdev.kmod hd (.inr hspent) e he
  exact ⟨howns.2 r hr hid ▸ r.event_asks, hhere⟩

/-- **A resolve settles its own request.**  In a run that turns the upcall of a
newly loaded module on only when the daemon knows no miss, a request that is
queued under the id of a drained event is that event's, and was read off the
module as it is loaded; and the drains insert under no other requests' keys. -/
theorem resolve_settles_own {w₀ : World} (hinit : w₀.Initial)
    (hrun : Run World.step FreshIds w₀ w) (hd : w.daemon = some d)
    (hpc : d.pc = .answers ∨ d.pc = .upcalls) (hstep : w.step (.daemon inp) = some (w', o)) :
    (∀ e ∈ d.resolving, ∀ key, w.os.Queued d.kern e.id key → e.Asks key ∧ ReadHere w₀ w e) ∧
      w.os.InsertsOnly w'.os fun key => ∃ e ∈ d.resolving, w.os.Queued d.kern e.id key := by
  constructor
  · exact fun e hmem key hq => asks_of_queued hinit hrun hd (d.knows_of_resolving hmem) hq
  obtain ⟨d₁, hd₁, hmap⟩ := Option.map_eq_some_iff.mp hstep
  obtain rfl := Option.some.inj (hd.symm.trans hd₁)
  have hmain := mainStep_of_step hmap
  cases hmain with
  | moves => exact .of_kmod_eq rfl
  | exits hpc' => simp [hpc'] at hpc
  | @answer ans p rx _ _ hpc' hrx hdrain =>
      have hresolving : d.resolving = (d.waiters p.key).map (·.ev) := by
        simp [Daemon.resolving, hpc', hrx]
      obtain ⟨os₁, kern, pol, ls, hr, -, rfl, rfl⟩ := drainAnswer_cases hdrain
      have hins : w.os.InsertsOnly os₁ fun key =>
          ∃ e ∈ d.resolving, w.os.Queued d.kern e.id key := by
        refine insertsOnly_resolveAll hr fun id hid key hq => ?_
        obtain ⟨wtr, hw, rfl⟩ := List.mem_map.mp hid
        exact ⟨wtr.ev, hresolving ▸ List.mem_map_of_mem hw, hq⟩
      exact fun k' hk' => hins k' ((Os.appendPolicy_kmod _ _ _) ▸ hk')
  | @upcall ev₀ urx _ _ _ hpc' hurx hdrain =>
      have hresolving : d.resolving = [ev₀] := by
        simp [Daemon.resolving, hpc', hurx]
      cases drainUpcall_cases hdrain with
      | resolved hv hr =>
          refine insertsOnly_resolveAll hr fun id hid key hq => ?_
          obtain rfl := List.mem_singleton.mp hid
          exact ⟨ev₀, hresolving ▸ List.mem_singleton_self _, hq⟩
      | asked => exact .of_kmod_eq rfl
  | effect heff =>
      obtain hpc | hpc := hpc <;> rw [hpc] at heff <;> cases heff
  | packet hpc' => simp [hpc'] at hpc

omit [Casing] in
/-- Steps that are easily seen to be safe: the upcall is not turned on, or the
daemon has no event in its readers, its channel or its waiters. -/
def Forgotten (w : World) : Event → Bool
  | .daemon _ => w.daemon.all fun d => d.pc.ops.head? ≠ some (.setUpcall true) ||
      d.readers.all (·.holding.isNone) && d.urx.isEmpty && d.pendingUpcalls.entries.isEmpty
  | _ => true

omit [Casing] in
theorem freshIds_of_forgotten (h : Forgotten w ev = true) : FreshIds w ev := by
  cases ev with
  | daemon inp =>
      rintro d k hd hhead - - e he
      simp only [Forgotten, hd, Option.all_some, hhead, ne_eq, not_true_eq_false, decide_false,
        Bool.false_or, Bool.and_eq_true, List.all_eq_true, List.isEmpty_iff] at h
      obtain ⟨⟨hreaders, hurx⟩, hwaiters⟩ := h
      obtain htransit | hwaits := he
      · exact Daemon.not_inTransit hreaders hurx htransit
      · exact Daemon.not_waits hwaiters hwaits
  | _ => trivial

omit [Casing] in
/-- A policy that lets everybody reach port 443 of 192.0.2.1 only. -/
def World.webOnly : World := World.withPolicy "attribution kernel\nallow-dest 192.0.2.1:443\n"

omit [Casing] in
/-- `/a` sends to port 443 before the module is reloaded, and to port 80 after. -/
def staleEvents : List Event :=
  kernelEvents ++ [sendEvent 443, .readerRead 0 false, .unloadModule, .loadModule,
    .editPolicy (some (.ofText "attribution kernel\nallow-dest 192.0.2.1:443\n".toList 2))] ++
  [.wait 1000] ++ List.replicate 12 (.daemon {}) ++
  [.wait 1000] ++ List.replicate 12 (.daemon {}) ++
  [.wait 1000] ++ List.replicate 14 (.daemon {}) ++
  [sendEvent 80, .readerSend 0] ++ List.replicate 3 (.daemon {})

omit [Casing] in
/-- A miss of port 443 is drained, and its own request is the one that is settled. -/
theorem resolve_settles_own_miss :
    letI := asciiCasing
    ∃ (w w' : World) (d : Daemon) (e : KernEvent), w.daemon = some d ∧ d.resolving = [e] ∧
      w.step (.daemon {}) = some (w', []) ∧ w.os.Queued d.kern e.id missKey ∧ e.Asks missKey := by
  let _ := asciiCasing
  obtain ⟨w, ⟨w₀, hinit, hrun⟩, hp⟩ := exists_reachable_of_exec
    (fun w ev => Forgotten w ev = true) World.webOnly ⟨rfl, rfl⟩
    (kernelEvents ++ [sendEvent 443, .readerRead 0 false, .readerSend 0] ++
      List.replicate 2 (.daemon {}))
    (fun w => w.daemon.any fun d => d.resolving.any fun e =>
      d.pc = .upcalls ∧ d.resolving = [e] ∧ (w.step (.daemon {})).any (fun r => r.2 = []) = true ∧
        (w.os.reach 1).any (fun k => k.reqs.any fun r => r.id = e.id ∧ r.key = missKey) = true ∧
        d.kern = some ⟨1, false⟩)
    (by decide +kernel)
  obtain ⟨d, hd, hp⟩ := (Option.any_eq_true _ _).mp hp
  obtain ⟨e, hmem, hp⟩ := List.any_eq_true.mp hp
  rw [decide_eq_true_eq] at hp
  obtain ⟨hpc, hresolving, hstep, hqueued, hkern⟩ := hp
  obtain ⟨⟨w', _⟩, hstep, ho⟩ := (Option.any_eq_true _ _).mp hstep
  obtain rfl := of_decide_eq_true ho
  obtain ⟨k, hk, hqueued⟩ := (Option.any_eq_true _ _).mp hqueued
  obtain ⟨r, hr, hreq⟩ := List.any_eq_true.mp hqueued
  obtain ⟨hid, hkey⟩ := of_decide_eq_true hreq
  have hq : w.os.Queued d.kern e.id missKey := ⟨k, ⟨_, hkern, rfl, hk⟩, r, hr, hid, hkey⟩
  obtain ⟨hown, -⟩ := resolve_settles_own hinit (hrun.mono fun _ _ => freshIds_of_forgotten) hd
    (.inr hpc) hstep
  exact ⟨w, w', d, e, hd, hresolving, hstep, hq, (hown e hmem missKey hq).1⟩

omit [Casing] in
/-- A miss of port 443 that a reader held while the module was reloaded settles
the request that the new module has queued under the same id: port 80 is allowed
from then on. -/
theorem resolve_settles_other :
    letI := asciiCasing
    ¬ ∀ (w w' : World) (d : Daemon) (inp : Input) (o : List Output),
      Reachable (fun _ _ => True) w → w.daemon = some d → d.pc = .answers ∨ d.pc = .upcalls →
      w.step (.daemon inp) = some (w', o) →
      w.os.InsertsOnly w'.os fun key => ∃ e ∈ d.resolving, e.Asks key := by
  let _ := asciiCasing
  intro h
  obtain ⟨w, hw, hp⟩ := exists_reachable_of_exec (fun _ _ => True) World.webOnly ⟨rfl, rfl⟩
    staleEvents
    (fun w => w.daemon.any fun d => d.pc = .upcalls ∧ d.resolving.all (fun e => e.dport = 443) ∧
      (w.os.kmod.all fun k => k.cache.lookup { missKey with fport := 80 } = none) ∧
      (w.step (.daemon {})).any (fun r => r.1.os.kmod.any fun k =>
        k.cache.lookup { missKey with fport := 80 } = some .allow) = true)
    (by decide +kernel)
  obtain ⟨d, hd, hp⟩ := (Option.any_eq_true _ _).mp hp
  rw [decide_eq_true_eq] at hp
  obtain ⟨hpc, hport, hbefore, hafter⟩ := hp
  obtain ⟨⟨w', o⟩, hstep, hafter⟩ := (Option.any_eq_true _ _).mp hafter
  obtain ⟨k', hk', hafter⟩ := (Option.any_eq_true _ _).mp hafter
  obtain ⟨k, hk, hlookup⟩ := h w w' d {} o hw hd (.inr hpc) hstep k' hk'
  obtain heq | ⟨e, hmem, -, -, hdport, -⟩ := hlookup { missKey with fport := 80 }
  · rw [of_decide_eq_true hafter, of_decide_eq_true (Option.all_eq_true _ _ |>.mp hbefore k hk)] at heq
    cases heq
  · have hweb := of_decide_eq_true (List.all_eq_true.mp hport e hmem)
    rw [hweb] at hdport
    cases hdport

end Pfsnitch
