import Pfsnitch.Calls

/-!
# Pfsnitch.Release

`kernel-reset`, which the watchdog calls when the daemon is gone.

The command turns the upcall off and flushes the verdicts.  From then on the kernel lets every
call pass, until a daemon turns the upcall on or files a verdict: it pushes one, or answers a
request that is still pending (`kernel_reset_releases`).
-/

namespace Pfsnitch

open Lib

/-- Does the event turn the upcall on? -/
def DevEvent.turnsOn : DevEvent → Bool
  | .ioctl (.ok (.upcallSet on)) _ => on
  | _ => false

/-- Can the event file a verdict?  An answer does when its request is still pending. -/
def DevEvent.files (k : KMod) : DevEvent → Bool
  | .ioctl (.ok (.push ..)) _ => true
  | .ioctl (.ok (.resolve id _)) _ => k.reqs.any fun r => r.id = id
  | _ => false

/-- Of the events none turns the upcall on, and none files a verdict when its turn comes. -/
def RawDev.Undecided (q : RawDev) : List RawEvent → Prop
  | [] => True
  | ev :: evs => ev.abs.turnsOn = false ∧ ev.abs.files q.kmod.abs = false ∧ (q.step ev).1.Undecided evs

/-- A call of the daemon or of a command, as an event of the device. -/
def Kernattr.Call.event (c : Kernattr.Call) (lookup : PfsnitchAttr → PfsnitchAttr) (memory : Bool) :
    RawEvent := .ioctl lookup c.cmd c.mem memory

/-- `cmd_kernel_reset`, when the device can be opened: its two calls, and what happens to the
device between them. -/
def cmdKernelReset (mid : List RawEvent) (lookup : PfsnitchAttr → PfsnitchAttr) (memory : Bool) :
    List RawEvent :=
  (Kernattr.setUpcall false).event lookup memory ::
    (mid ++ [Kernattr.flushVerdicts.event lookup memory])

/-- What a process is told whose call a hook has judged. -/
def RawOutcome.verdict : RawOutcome → Option HookResult
  | .hook r => some r
  | _ => none

variable {d : Dev} {ev : DevEvent} {evs evs' : List DevEvent}

namespace Dev

/-! ## events one after the other -/

theorem run_append (d : Dev) (evs evs' : List DevEvent) :
    d.run (evs ++ evs') =
      (((d.run evs).1.run evs').1, (d.run evs).2 ++ ((d.run evs).1.run evs').2) := by
  induction evs generalizing d with
  | nil => rfl
  | cons ev evs ih => simp only [List.cons_append, run, ih]

/-! ## the upcall stays off -/

/-- While the upcall is off it stays off, and only what files a verdict adds to the cache. -/
theorem step_off (hoff : d.kmod.upcallOn = false) (hon : ev.turnsOn = false) :
    (d.step ev).1.kmod.upcallOn = false ∧ (ev.files d.kmod = false →
      (d.step ev).1.kmod.cache = d.kmod.cache ∨ (d.step ev).1.kmod.cache = Table.empty) := by
  cases ev with
  | hook so sa memory =>
      obtain ⟨hcache, hup⟩ := d.kmod.checkConnect_frame so sa memory d.now
      exact ⟨hup.trans hoff, fun _ => .inl hcache⟩
  | ioctl req memory =>
      cases req with
      | error e => exact ⟨hoff, fun _ => .inl rfl⟩
      | ok req =>
          cases req with
          | push proto addr fport v path =>
              refine ⟨?_, fun hfiles => by cases hfiles⟩
              change (d.kmod.verdictPush proto addr fport v path memory).upcallOn = false
              obtain h | h := d.kmod.verdictPush_cases proto addr fport v path memory <;>
                rw [h] <;> exact hoff
          | resolve id v =>
              obtain h | ⟨r, hr, hid, _, h, _⟩ := d.kmod.resolve_cases id v memory
              · exact ⟨(congrArg KMod.upcallOn h).trans hoff, fun _ => .inl (congrArg KMod.cache h)⟩
              · refine ⟨h.trans hoff, fun hfiles => ?_⟩
                have hpending : (d.kmod.reqs.any fun r => r.id = id) = true :=
                  List.any_eq_true.mpr ⟨r, hr, decide_eq_true hid⟩
                rw [DevEvent.files, hpending] at hfiles
                cases hfiles
          | upcallSet on => exact ⟨hon, fun _ => .inl rfl⟩
          | flush => exact ⟨hoff, fun _ => .inr rfl⟩
          | query => exact ⟨hoff, fun _ => .inl rfl⟩
  | read =>
      rw [step, KMod.read_of_off hoff]
      exact ⟨hoff, fun _ => .inl rfl⟩
  | copied i fault =>
      rw [step]
      cases d.copying[i]? with
      | none => exact ⟨hoff, fun _ => .inl rfl⟩
      | some r => cases fault <;> exact ⟨hoff, fun _ => .inl rfl⟩
  | close => exact ⟨rfl, fun _ => .inl rfl⟩
  | shortRead | setFailmode | wait => exact ⟨hoff, fun _ => .inl rfl⟩

theorem run_off (hoff : d.kmod.upcallOn = false) (hevs : ∀ ev ∈ evs, ev.turnsOn = false) :
    (d.run evs).1.kmod.upcallOn = false := by
  induction evs generalizing d with
  | nil => exact hoff
  | cons ev evs ih =>
      exact ih (step_off hoff (hevs ev List.mem_cons_self)).1 fun e he =>
        hevs e (List.mem_cons_of_mem ev he)

/-! ## nothing is decided -/

/-- The kernel asks nobody, and knows no verdict. -/
structure Released (d : Dev) : Prop where
  off : d.kmod.upcallOn = false
  empty : d.kmod.cache = Table.empty

theorem Released.pass (h : d.Released) (so : Socket) (sa : SockAddr) (memory : Bool) :
    d.kmod.checkConnect so sa memory d.now = (.pass, d.kmod) := by
  obtain hpass | ⟨key, hdeny, -⟩ | ⟨_, _, _, hon, -⟩ :=
    d.kmod.checkConnect_cases so sa memory d.now
  · exact hpass
  · rw [h.empty] at hdeny
    simp [VCache.lookup, Table.find, Table.empty, Table.findIn] at hdeny
  · rw [h.off] at hon
    cases hon

theorem Released.step (h : d.Released) (hon : ev.turnsOn = false) (hfiles : ev.files d.kmod = false) :
    (d.step ev).1.Released ∧ ∀ r, (d.step ev).2 = .hook r → r = .pass := by
  obtain ⟨hoff, hcache⟩ := step_off h.off hon
  refine ⟨⟨hoff, (hcache hfiles).elim (·.trans h.empty) id⟩, fun r hr => ?_⟩
  cases ev with
  | hook so sa memory =>
      rw [Dev.step, h.pass] at hr
      exact (DevOutcome.hook.inj hr).symm
  | ioctl req memory => cases req <;> cases hr
  | read =>
      rw [Dev.step, KMod.read_of_off h.off] at hr
      cases hr
  | copied i fault =>
      rw [Dev.step] at hr
      cases hcopy : d.copying[i]? with
      | none => rw [hcopy] at hr; cases hr
      | some r' => rw [hcopy] at hr; cases fault <;> cases hr
  | shortRead | close | setFailmode | wait => cases hr

/-- The upcall is turned off, and then the verdicts are flushed. -/
theorem released_of_reset (d : Dev) (evs : List DevEvent) {mid : List DevEvent} (memory : Bool)
    (hmid : ∀ ev ∈ mid, ev.turnsOn = false) :
    (d.run (evs ++ .ioctl (.ok (.upcallSet false)) memory ::
      (mid ++ [.ioctl (.ok .flush) memory]))).1.Released := by
  rw [run_append]
  change (((d.run evs).1.step (.ioctl (.ok (.upcallSet false)) memory)).1.run
    (mid ++ [.ioctl (.ok .flush) memory])).1.Released
  rw [run_append]
  have hoff := run_off (d := ((d.run evs).1.step (.ioctl (.ok (.upcallSet false)) memory)).1) rfl
    hmid
  exact ⟨hoff, rfl⟩

end Dev

/-! ## the compiled device -/

theorem RawDev.run_append (q : RawDev) (evs evs' : List RawEvent) :
    q.run (evs ++ evs') =
      (((q.run evs).1.run evs').1, (q.run evs).2 ++ ((q.run evs).1.run evs').2) := by
  induction evs generalizing q with
  | nil => rfl
  | cons ev evs ih => simp only [List.cons_append, run, ih]

theorem RawDev.length_run (q : RawDev) (evs : List RawEvent) : (q.run evs).2.length = evs.length := by
  induction evs generalizing q with
  | nil => rfl
  | cons ev evs ih => exact congrArg (· + 1) (ih _)

variable {q : RawDev}

theorem Stands.nextId_run (h : Stands q d) (evs : List RawEvent)
    (hid : q.kmod.nextId.toNat + evs.length < 2 ^ 64) :
    (q.run evs).1.kmod.nextId.toNat ≤ q.kmod.nextId.toNat + evs.length := by
  induction evs generalizing q d with
  | nil => exact Nat.le_refl _
  | cons ev evs ih =>
      rw [List.length_cons] at hid ⊢
      have hused := h.nextId_step (by omega) ev
      have hrest := ih (h.step (by omega) ev).1 (by omega)
      exact Nat.le_trans hrest (by omega)

/-- As long as nothing is decided, every hook passes. -/
theorem Stands.run_released (h : Stands q d) (hd : d.Released) {evs : List RawEvent}
    (hid : q.kmod.nextId.toNat + evs.length < 2 ^ 64) (hevs : q.Undecided evs) :
    ∀ r, .hook r ∈ (q.run evs).2 → r = .pass := by
  induction evs generalizing q d with
  | nil => exact fun r hr => absurd hr List.not_mem_nil
  | cons ev evs ih =>
      rw [List.length_cons] at hid
      obtain ⟨hon, hfiles, hrest⟩ := hevs
      obtain ⟨hnext, hshows⟩ := h.step (by omega) ev
      have hused := h.nextId_step (by omega) ev
      obtain ⟨hreleased, hpass⟩ := hd.step hon (h.kmod ▸ hfiles)
      intro r hr
      have hr : .hook r ∈ (q.step ev).2 :: ((q.step ev).1.run evs).2 := hr
      obtain heq | hr := List.mem_cons.mp hr
      · rw [← heq] at hshows
        refine hpass r ?_
        generalize (d.step ev.abs).2 = o at hshows
        cases hshows
        rfl
      · exact ih hnext hreleased (by omega) hrest r hr

/-! ## the command -/

/-- **`kernel-reset` releases the machine.**  Whatever has happened to the compiled device: once
the two calls of the command have been made, in whatever company but that nobody turns the
upcall on again, every call that is made passes, in either failmode, until a verdict is filed
or the upcall is turned on. -/
theorem kernel_reset_releases (m : Int32) (now : Nat) (evs mid later : List RawEvent)
    (lookup : PfsnitchAttr → PfsnitchAttr) (memory : Bool)
    (hid : evs.length + mid.length + later.length + 3 < 2 ^ 64)
    (hmid : ∀ ev ∈ mid, ev.abs.turnsOn = false) :
    let reset := evs ++ cmdKernelReset mid lookup memory
    ((RawDev.fresh m now).run reset).1.Undecided later →
      ∀ r, .hook r ∈ ((RawDev.fresh m now).run (reset ++ later)).2.drop reset.length → r = .pass := by
  intro reset hlater r hr
  have hlength : reset.length = evs.length + mid.length + 2 := by
    simp only [reset, cmdKernelReset, List.length_append, List.length_cons, List.length_nil]
    omega
  have hfirst : (RawDev.fresh m now).kmod.nextId.toNat = 1 := rfl
  obtain ⟨hstands, -⟩ := stands_run m now reset (by omega)
  have hused := (Stands.fresh m now).nextId_run reset (by omega)
  have hreleased : ((Dev.fresh (if m = 1 then .fclosed else .fopen) now).run
      (reset.map RawEvent.abs)).1.Released := by
    have hoff : RawEvent.abs ((Kernattr.setUpcall false).event lookup memory) =
        .ioctl (.ok (.upcallSet false)) memory :=
      congrArg (DevEvent.ioctl · memory) (Kernattr.ofIoctl_setUpcall false)
    have hflush : RawEvent.abs (Kernattr.flushVerdicts.event lookup memory) =
        .ioctl (.ok .flush) memory :=
      congrArg (DevEvent.ioctl · memory) (by decide)
    rw [List.map_append, cmdKernelReset, List.map_cons, List.map_append, hoff, List.map_singleton, hflush]
    exact Dev.released_of_reset _ _ memory (by simpa using hmid)
  rw [RawDev.run_append, List.drop_left' (RawDev.length_run _ _)] at hr
  exact hstands.run_released hreleased (by omega) hlater r hr

/-- A datagram that a daemon has denied passes after the command, also when an answer comes to
a request that is not pending any more. -/
theorem kernel_reset_releases_denied :
    let deny := Kernattr.verdictCall IPPROTO_UDP (.v4 ⟨8, 8, 4, 4⟩) 9 [47, 97] false
    let send : RawEvent :=
      .hook ⟨.dgram, some ⟨7, 0, [], [47, 97, 0]⟩, false⟩
        (.inet (.v4 ⟨8, 8, 4, 4⟩) (Kernattr.toBe 9)) ⟨List.replicate 16 0, rfl⟩ true
    let answer := (Kernattr.resolve 1 false).event id true
    let reset := [(Kernattr.setUpcall true).event id true, send, answer, deny.event id true, send] ++
      cmdKernelReset [] id true
    ((RawDev.fresh 0 0).run (reset ++ [answer, send])).2.filterMap RawOutcome.verdict =
        [.eagain, .eperm, .pass] ∧
      ∀ r, .hook r ∈ ((RawDev.fresh 0 0).run (reset ++ [answer, send])).2.drop reset.length →
        r = .pass := by
  intro deny send answer reset
  refine ⟨by decide +kernel,
    kernel_reset_releases 0 0 _ [] [answer, send] id true (by decide) (by simp) ?_⟩
  exact ⟨rfl, by decide +kernel, rfl, rfl, trivial⟩

end Pfsnitch
