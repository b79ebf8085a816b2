import Pfsnitch.Enforcement
import Pfsnitch.Flush

/-!
# Pfsnitch.Visibility

When visibility blocks nothing.

The tick that switches to visibility flushes the verdict cache and turns the
upcall off (`Lowered`), and from then on the kernel asks nothing and refuses
nothing.  What is left is work begun under enforcement: misses on their way to
the main thread and prompts that are still open.  The drains treat them as
before, so the run stays free of prompts and denies when those that are drained
are allowed (`visibility_blocks_nothing`), for instance because there are none
(`idle_settling`).
-/

namespace Pfsnitch

open Lib

variable [Casing]

variable {w w' : World} {ev : Event} {o : List Output} {inp : Input} {os : Os} {d d' : Daemon}

/-! ## turning the upcall off -/

omit [Casing] in
/-- No deny is cached. -/
def NoDeny (t : VCache) : Prop := ∀ key, ¬ t.Mem key .deny

/-- The steps after which a reload into visibility leaves no deny in the cache
and the upcall off: the device does not fail, and a reload reads a policy that
names the kernel backend, or finds no deny. -/
def VisibilitySafe (w : World) (ev : Event) : Prop :=
  FlushSafe NoDeny w ev ∧ ∀ inp d, ev = .daemon inp → w.daemon = some d →
    d.pc.ops.head? = some (.setUpcall false) → inp.ioctl 0 = .ok

omit [Casing] in
/-- An upcall that is on is behind a handle that works, is known to the daemon,
or about to be, and is turned off before the daemon forgets it or replaces the
handle. -/
structure Known (os : Os) (d : Daemon) : Prop where
  live : os.Live d.kern
  marked : d.upcallOn = true ∨ .markOn ∈ d.pc.ops
  ahead : .openBackend ∈ d.pc.ops ∨ .markOff ∈ d.pc.ops → .setUpcall false ∈ d.pc.ops

omit [Casing] in
/-- The upcall is off, or the daemon knows about it. -/
def Tracked (w : World) : Prop :=
  w.os.Upcall false ∨ ∃ d, w.daemon = some d ∧ Known w.os d

omit [Casing] in
/-- After a reload into visibility, the upcall has been turned off, or will be. -/
def Lowered (w : World) : Prop :=
  ∀ d ops, w.daemon = some d → d.pc = .ticking true ops → d.mode = .visibility →
    .reconcile ∈ ops ∨ (.openReader ∉ ops ∧ .setUpcall true ∉ ops) ∧
      (.setUpcall false ∈ ops ∨ w.os.Upcall false)

omit [Casing] in
/-- Which effects can come together with those that switch the upcall. -/
theorem switch_shape : ∀ ops ∈ allShapes,
    (ops.head? = some (.setUpcall true) →
      .markOn ∈ ops.tail ∧ .openBackend ∉ ops ∧ .markOff ∉ ops) ∧
    (ops.head? = some .openBackend ∨ ops.head? = some .markOff → .setUpcall false ∉ ops) ∧
    (ops.head? = some .reload → .markOn ∉ ops) ∧
    (ops.head? = some .reconcile → ops = [.reconcile]) := by
  decide

omit [Casing] in
/-- Turning the upcall off through a handle that works, or while it is off. -/
theorem upcall_of_lowered (htracked : os.Upcall false ∨ os.Live d.kern) :
    (kernIoctl os d.kern .ok fun k => k.upcallSet false).1.Upcall false := by
  obtain ⟨k, -, -, heq⟩ | ⟨heq, hdead⟩ :=
    Os.kernIoctl_cases os d.kern .ok fun k => k.upcallSet false
  · rw [heq]
    rintro _ ⟨⟩
    rfl
  · rw [heq]
    exact htracked.resolve_right (hdead rfl)

omit [Casing] in
/-- What switches the upcall is asked for in one piece, or by a reload. -/
theorem extras_switch {op : Op} : ∀ extra ∈ op.extras,
    (.markOff ∈ extra → .setUpcall false ∈ extra) ∧ (.openBackend ∈ extra → op = .reload) ∧
      (.openReader ∈ extra → op = .reconcile) ∧ (.setUpcall true ∈ extra → op = .openReader) := by
  cases op <;> decide +revert

omit [Casing] in
theorem switch_of_moves {pc : Pc} {lastCheck : Nat} (hm : Moves os d pc lastCheck) :
    .openBackend ∉ pc.ops ∧ .markOff ∉ pc.ops ∧ .openReader ∉ pc.ops ∧ .setUpcall true ∉ pc.ops := by
  obtain h | h | h := hm.ops.2 <;> rw [h]
  · simp
  · decide
  · cases d.upcallOn <;> decide

/-- A step of the main thread that does not turn the upcall off keeps track of it. -/
theorem MainStep.known (hstep : MainStep inp os d w' o) (hok : ∀ n, inp.ioctl n ≠ .fail true)
    (hshape : d.pc.ops ∈ d.pc.shapes) (hknown : Known os d)
    (hfalse : d.pc.ops.head? ≠ some (.setUpcall false)) (hd' : w'.daemon = some d') :
    Known w'.os d' := by
  obtain ⟨-, hlate, hreload, -⟩ := switch_shape _ (d.pc.shapes_subset hshape)
  have hbackend : d.pc.ops.head? ≠ some .openBackend := fun h =>
    hlate (.inl h) (hknown.ahead (.inl (List.mem_of_mem_head? h)))
  have hmarkOff : d.pc.ops.head? ≠ some .markOff := fun h =>
    hlate (.inr h) (hknown.ahead (.inr (List.mem_of_mem_head? h)))
  refine ⟨hstep.live hok hbackend hd' hknown.live, ?_, fun hmem => ?_⟩
  · by_cases hmarkOn : d.pc.ops.head? = some .markOn
    · obtain ⟨rest, extra, next, os', d₁, heff, hrun, rfl⟩ := hstep.effect_of_head hmarkOn
      simp only [Op.run, Prod.mk.injEq] at hrun
      obtain ⟨-, rfl, -⟩ := hrun
      obtain rfl := Option.some.inj hd'
      exact .inl rfl
    · exact hknown.marked.imp (fun h => (hstep.marked hd' hmarkOn hmarkOff).trans h)
        fun h => (hstep.pending hd' h).resolve_left hmarkOn
  · obtain ⟨hpc, -⟩ | ⟨_, hm⟩ | ⟨-, hpc⟩ | ⟨op, rest, extra, next, d₁, heff, hrun, rfl⟩ :=
      hstep.next hd'
    · rw [hpc] at hmem ⊢
      exact hknown.ahead hmem
    · obtain ⟨h₁, h₂, -⟩ := switch_of_moves hm
      exact absurd hmem (not_or.mpr ⟨h₁, h₂⟩)
    · simp [hpc, Pc.ops] at hmem
    · have hops := heff.ops.1
      rw [hops] at hfalse
      simp only [heff.ops.2, List.mem_append] at hmem ⊢
      by_cases hrest : .openBackend ∈ rest ∨ .markOff ∈ rest
      · have hmem : .setUpcall false ∈ d.pc.ops := hknown.ahead (by
          rw [hops]
          exact hrest.imp (List.mem_cons_of_mem _) (List.mem_cons_of_mem _))
        rw [hops, List.mem_cons] at hmem
        exact .inr (hmem.resolve_left fun h => hfalse (congrArg some h.symm))
      · obtain ⟨hpiece, honly, -⟩ := extras_switch extra (Op.extra_mem_extras hrun)
        by_cases hmark : .markOff ∈ extra
        · exact .inl (hpiece hmark)
        · have hopens : .openBackend ∈ extra := by tauto
          -- the reload that replaces the handle turns the upcall off first
          obtain rfl := honly hopens
          have hon := hknown.marked.resolve_right (hreload (by rw [hops]; rfl))
          simp only [Op.run, reloadPolicy, hon, Prod.mk.injEq, if_true] at hrun
          rw [← hrun.2.2] at hopens ⊢
          split_ifs at hopens ⊢
          · exact .inl (by simp [teardown])
          · simp at hopens

/-- A step of the main thread keeps track of the upcall. -/
theorem MainStep.tracked (hstep : MainStep inp w.os d w' o) (hd : w.daemon = some d)
    (hsafe : VisibilitySafe w (.daemon inp)) (hshape : Shaped w) (hinv : Tracked w) :
    Tracked w' := by
  have hok := hsafe.1.1
  have hshape := hshape d hd
  obtain hoff | ⟨d₀, hd₀, hknown⟩ := hinv
  · by_cases htrue : d.pc.ops.head? = some (.setUpcall true)
    · by_cases hlive : w.os.Live d.kern
      · obtain ⟨hon, -⟩ := switch_shape _ (d.pc.shapes_subset hshape)
        obtain ⟨hmark, hbackend, hmarkOff⟩ := hon htrue
        obtain ⟨rest, extra, next, os', d₁, heff, hrun, rfl⟩ := hstep.effect_of_head htrue
        simp only [Op.run, Prod.mk.injEq] at hrun
        obtain ⟨rfl, rfl, rfl⟩ := hrun
        rw [heff.ops.1, List.mem_cons, not_or] at hbackend hmarkOff
        rw [heff.ops.1, List.tail_cons] at hmark
        refine .inr ⟨_, rfl, (Os.live_kernIoctl (hok 0)).mpr hlive, .inr ?_, fun hmem => ?_⟩
        · rw [heff.ops.2]
          exact hmark
        · rw [heff.ops.2] at hmem
          exact absurd hmem (not_or.mpr ⟨hbackend.2, hmarkOff.2⟩)
      · -- the call reaches no module
        obtain ⟨rest, extra, next, os', d₁, heff, hrun, rfl⟩ := hstep.effect_of_head htrue
        simp only [Op.run, Prod.mk.injEq] at hrun
        obtain ⟨rfl, -, -⟩ := hrun
        left
        obtain ⟨k, hk, -⟩ | ⟨heq, -⟩ :=
          Os.kernIoctl_cases w.os d.kern (inp.ioctl 0) fun k => k.upcallSet true
        · exact absurd ⟨k, hk⟩ hlive
        · simpa only [heq] using hoff
    · refine .inl (hstep.upcall_flag hoff (fun on hset => ?_) (by simp))
      cases on with
      | true => exact absurd hset htrue
      | false => rfl
  · obtain rfl := Option.some.inj (hd.symm.trans hd₀)
    by_cases hfalse : d.pc.ops.head? = some (.setUpcall false)
    · obtain ⟨rest, extra, next, os', d₁, heff, hrun, rfl⟩ := hstep.effect_of_head hfalse
      simp only [Op.run, hsafe.2 inp d rfl hd hfalse, Prod.mk.injEq] at hrun
      obtain ⟨rfl, -, -⟩ := hrun
      exact .inl (upcall_of_lowered (.inr hknown.live))
    · cases hd' : w'.daemon with
      | none => exact .inl (hstep.upcall_of_gone hknown.live hd')
      | some d' => exact .inr ⟨d', hd', hstep.known hok hshape hknown hfalse hd'⟩

omit [Casing] in
/-- Around the main thread, the upcall stays tracked. -/
theorem Outside.tracked (hout : Outside w ev w' o) (hinv : Tracked w) : Tracked w' := by
  obtain hoff | ⟨d, hd, hknown⟩ := hinv
  · exact .inl (hout.upcall_flag hoff (by simp))
  · obtain hlive | ⟨-, hnone⟩ := hout.live hknown.live
    · obtain hnone | ⟨_, hnone, -⟩ | ⟨d₀, d', hd₀, hd', hmain⟩ := hout.daemon
      · left
        cases hout with
        | crash hd₀ =>
            obtain rfl := Option.some.inj (hd.symm.trans hd₀)
            exact Os.upcall_closeAll_of_live hknown.live
        | startDaemon | signal | promptDone | readerEnd | readerRead | readerSend => cases hnone
        | _ => cases hd.symm.trans hnone
      · cases hd.symm.trans hnone
      · obtain rfl := Option.some.inj (hd.symm.trans hd₀)
        obtain ⟨_, _, _, _, _, rfl⟩ := hmain
        exact .inr ⟨_, hd', hlive, hknown.marked, hknown.ahead⟩
    · left
      intro k hk
      simp [hnone] at hk

/-- After a reload into visibility, a step of the main thread leads on to the
upcall being off. -/
theorem MainStep.lowered (hstep : MainStep inp w.os d w' o) (hd : w.daemon = some d)
    (hsafe : VisibilitySafe w (.daemon inp)) (hshape : Shaped w) (htracked : Tracked w)
    (hinv : Lowered w) : Lowered w' := by
  intro d' ops' hd' hpc' hmode'
  obtain ⟨reloaded, op, rest, extra, d₁, hpc, hreloaded, hrun, rfl, rfl⟩ :=
    hstep.of_reloaded hd' hpc'
  have hops : d.pc.ops = op :: rest := by rw [hpc]; rfl
  have hshape := hshape d hd
  obtain ⟨-, -, hmarks, honly⟩ := switch_shape _ (d.pc.shapes_subset hshape)
  rw [hops] at hmarks honly
  have hextra := extras_switch extra (Op.extra_mem_extras hrun)
  simp only [List.mem_append, not_or]
  by_cases hreload : op = .reload
  · subst hreload
    have hrec : ∀ r, ∀ ops ∈ tickShapes r, ops.head? = some .reload → .reconcile ∈ ops.tail := by
      decide
    rw [hpc] at hshape
    exact .inl (.inr (hrec reloaded _ hshape rfl))
  · obtain rfl := hreloaded.resolve_right hreload
    have hload : op ≠ .loadPolicy := not_loadPolicy_of_ticking hpc hshape hops
    have hmode : d.mode = .visibility := ((Op.run_keeps hrun).pol hload hreload).2.symm.trans hmode'
    by_cases hrec : op = .reconcile
    · -- the upcall is not wanted: it is torn down, or was off
      subst hrec
      obtain rfl := (List.cons.inj (honly rfl)).2
      have hwant : d.wantUpcall = false := by simp [Daemon.wantUpcall, hmode, Mode.enforcing]
      simp only [Op.run, hwant, Bool.false_and, Bool.false_eq_true, if_false, Bool.not_false,
        Bool.true_and] at hrun
      right
      split at hrun <;> simp only [Prod.mk.injEq, Option.some.injEq] at hrun <;>
        obtain ⟨hos, rfl, rfl⟩ := hrun
      · exact ⟨by simp [teardown], .inl (by simp [teardown])⟩
      · rename_i hoff
        refine ⟨by simp, .inr ?_⟩
        rw [← hos]
        refine htracked.resolve_right ?_
        rintro ⟨d₀, hd₀, hknown⟩
        obtain rfl := Option.some.inj (hd.symm.trans hd₀)
        obtain h | h := hknown.marked
        · exact hoff h
        · simp [hops] at h
    · obtain hmem | ⟨⟨hreader, htrue⟩, hlow⟩ := hinv d _ hd hpc hmode
      · exact .inl (.inr ((List.mem_cons.mp hmem).resolve_left (Ne.symm hrec)))
      · rw [List.mem_cons, not_or] at hreader htrue
        refine .inr ⟨⟨⟨fun h => hrec (hextra.2.2.1 h), hreader.2⟩,
          ⟨fun h => hreader.1 (hextra.2.2.2 h).symm, htrue.2⟩⟩, ?_⟩
        obtain hfalse | hoff := hlow
        · rw [List.mem_cons] at hfalse
          obtain rfl | hfalse := hfalse
          · right
            simp only [Op.run, hsafe.2 inp d rfl hd (by rw [hops]; rfl), Prod.mk.injEq] at hrun
            rw [← hrun.1]
            refine upcall_of_lowered (htracked.imp_right fun hknown => ?_)
            obtain ⟨d₀, hd₀, hknown⟩ := hknown
            obtain rfl := Option.some.inj (hd.symm.trans hd₀)
            exact hknown.live
          · exact .inl (.inr hfalse)
        · refine .inr (hstep.upcall_flag hoff (fun on hset => ?_) (by simp))
          rw [hops, List.head?_cons] at hset
          cases on with
          | true => exact absurd (Option.some.inj hset).symm htrue.1
          | false => rfl

omit [Casing] in
theorem Outside.lowered (hout : Outside w ev w' o) (hinv : Lowered w) : Lowered w' := by
  intro d' ops hd' hpc hmode
  obtain hnone | ⟨fallback, -, hnew⟩ | ⟨d, d₁, hd, hd₁, _, _, _, _, _, rfl⟩ := hout.daemon
  · simp [hnone] at hd'
  · obtain rfl := Option.some.inj (hnew.symm.trans hd')
    cases hpc
  · obtain rfl := Option.some.inj (hd₁.symm.trans hd')
    exact (hinv d ops hd hpc hmode).imp_right fun h =>
      ⟨h.1, h.2.imp_right fun hoff => hout.upcall_flag hoff (by simp)⟩

/-- The invariant of the tick that switches to visibility. -/
structure Switching (w : World) : Prop where
  flushing : Flushing NoDeny w
  tracked : Tracked w
  lowered : Lowered w

theorem step_switching (h : w.step ev = some (w', o)) (hsafe : VisibilitySafe w ev)
    (hinv : Switching w) : Switching w' := by
  have hflushing := step_flushing h hsafe.1 (fun key => Table.not_mem_empty key _) hinv.flushing
  have hshape := hinv.flushing.shaped
  obtain ⟨inp, d, rfl, hd, hmain⟩ | hout := step_cases h
  · exact ⟨hflushing, hmain.tracked hd hsafe hshape hinv.tracked,
      hmain.lowered hd hsafe hshape hinv.tracked hinv.lowered⟩
  · exact ⟨hflushing, hout.tracked hinv.tracked, hout.lowered hinv.lowered⟩

theorem reachable_switching (h : Reachable VisibilitySafe w) : Switching w := by
  obtain ⟨w₀, hinit, hrun⟩ := h
  refine hrun.invariant ⟨⟨hinit.no_daemon, hinit.no_daemon, ?_⟩, .inl ?_, ?_⟩
    fun _ _ _ _ hinv hsafe hstep => step_switching hstep hsafe hinv
  · intro d ops hd
    simp [hinit.2] at hd
  · intro k hk
    simp [hinit.1] at hk
  · intro d ops hd
    simp [hinit.2] at hd

/-! ## in visibility -/

omit [Casing] in
/-- The daemon, once in its loop, is in visibility. -/
def InVisibility (w : World) : Prop :=
  ∀ d, w.daemon = some d → d.pc.inLoop = true → d.mode = .visibility

/-- What a step drains of the work begun under enforcement is allowed: a kernel
event that the policy allows or that names no binary, and an answer that
approves, or for which no queued miss waits. -/
def Settling (w : World) : Event → Prop
  | .daemon _ => ∀ d, w.daemon = some d →
      (∀ ev urx, d.pc = .upcalls → d.urx = ev :: urx →
        ev.path = [] ∨ eventVerdict w.os d ev = .allow) ∧
      ∀ ans p rx, d.pc = .answers → d.rx = (ans, p) :: rx →
        ans.approves = true ∨ ∀ wtr ∈ d.waiters p.key, ∀ key, ¬ w.os.Queued d.kern wtr.ev.id key
  | _ => True

omit [Casing] in
/-- No deny is cached, the upcall is off, and is not about to be turned on. -/
structure Quiet (w : World) : Prop where
  cache : w.os.Cache NoDeny
  off : w.os.Upcall false
  closed : ∀ d, w.daemon = some d → .openReader ∉ d.pc.ops ∧ .setUpcall true ∉ d.pc.ops

omit [Casing] in
/-- Inserting an allow caches no deny. -/
theorem NoDeny.cacheInsert {t : VCache} (h : NoDeny t) (memory : Bool) (key : VKey) :
    NoDeny (VCache.cacheInsert t memory key .allow) := by
  intro key' hmem
  simp only [VCache.cacheInsert] at hmem
  split at hmem
  · exact h key' hmem
  · obtain ⟨-, hv⟩ | hmem := Table.mem_insert hmem
    · cases hv
    · exact h key' hmem

/-- In visibility only allows are inserted, unless a drain denies. -/
theorem Inserts.allow {key : VKey} {v : KVerdict} (hins : Inserts inp w.os d key v)
    (hd : w.daemon = some d) (hvis : InVisibility w) (hsettle : Settling w (.daemon inp)) :
    v = .allow := by
  obtain ⟨hevents, hanswers⟩ := hsettle d hd
  cases hins with
  | answer hpc hrx hw hq =>
      obtain happ | hnone := hanswers _ _ _ hpc hrx
      · simp [toKVerdict, happ]
      · exact absurd hq (hnone _ hw _)
  | upcall hpc hurx hv hq =>
      obtain ⟨-, rfl⟩ | ⟨hpath, hv⟩ := hv
      · rfl
      · have hallow := (hevents _ _ hpc hurx).resolve_left hpath
        rw [hv] at hallow
        cases v with
        | allow => rfl
        | deny => cases hallow
  | packet hpc hpkt hparse hsrc hmode =>
      have hvisible := hvis d hd (by rw [hpc]; rfl)
      rw [hmode] at hvisible
      cases hvisible

/-- A step in visibility stays quiet. -/
theorem step_quiet (h : w.step ev = some (w', o)) (hshape : Shaped w) (hvis : InVisibility w)
    (hsettle : Settling w ev) (hinv : Quiet w) : Quiet w' := by
  have hcache : w'.os.Cache NoDeny := by
    refine step_cache h hinv.cache (fun key => Table.not_mem_empty key _) ?_
    rintro _ d rfl hd key v hins t memory ht
    obtain rfl := hins.allow hd hvis hsettle
    exact ht.cacheInsert memory key
  obtain ⟨inp, d, rfl, hd, hmain⟩ | hout := step_cases h
  · obtain ⟨hreader, htrue⟩ := hinv.closed d hd
    refine ⟨hcache, hmain.upcall_flag hinv.off (fun on hset => ?_) (by simp), fun d' hd' => ?_⟩
    · cases on with
      | true => exact absurd (List.mem_of_mem_head? hset) htrue
      | false => rfl
    · obtain ⟨hpc, -⟩ | ⟨_, hm⟩ | ⟨-, hpc⟩ | ⟨op, rest, extra, next, d₁, heff, hrun, rfl⟩ :=
        hmain.next hd'
      · rw [hpc]
        exact ⟨hreader, htrue⟩
      · exact (switch_of_moves hm).2.2
      · simp [hpc, Pc.ops]
      · obtain ⟨-, -, hrec, hopens⟩ := extras_switch extra (Op.extra_mem_extras hrun)
        have hops := heff.ops.1
        rw [hops, List.mem_cons, not_or] at hreader htrue
        simp only [heff.ops.2, List.mem_append, not_or]
        refine ⟨⟨fun hmem => ?_, hreader.2⟩, fun hmem => hreader.1 (hopens hmem).symm, htrue.2⟩
        -- the reconciliation does not want the upcall
        obtain rfl := hrec hmem
        have hloop : d.pc.inLoop = true := by
          have hshape := hshape d hd
          have hstart : ∀ ops ∈ startShapes, .reconcile ∉ ops := by decide
          generalize d.pc = pc at heff hshape hops
          cases heff with
          | starting => exact absurd List.mem_cons_self (hstart _ hshape)
          | _ => rfl
        have hwant : d.wantUpcall = false := by
          simp [Daemon.wantUpcall, hvis d hd hloop, Mode.enforcing]
        simp only [Op.run, hwant, Bool.false_and, Bool.false_eq_true, if_false, Bool.not_false,
          Bool.true_and] at hrun
        split at hrun <;> simp only [Prod.mk.injEq] at hrun <;> rw [← hrun.2.2] at hmem <;>
          simp [teardown] at hmem
  · refine ⟨hcache, hout.upcall_flag hinv.off (by simp), fun d' hd' => ?_⟩
    obtain hnone | ⟨fallback, -, hnew⟩ | ⟨d, d₁, hd, hd₁, _, _, _, _, _, rfl⟩ := hout.daemon
    · simp [hnone] at hd'
    · obtain rfl := Option.some.inj (hnew.symm.trans hd')
      exact (by decide : .openReader ∉ startOps ∧ .setUpcall true ∉ startOps)
    · obtain rfl := Option.some.inj (hd₁.symm.trans hd')
      exact hinv.closed d hd

/-! ## nothing is blocked -/

/-- What may be seen: a packet goes on, and the hook lets a call pass. -/
def Output.Harmless : Output → Prop
  | .reinject _ _ => True
  | .hook r => r = .pass
  | .reset _ | .prompt _ => False

omit [Casing] in
/-- Without a cached deny and with the upcall off, the hook lets every call pass. -/
theorem checkConnect_of_quiet {k : KMod} (hcache : NoDeny k.cache) (hoff : k.upcallOn = false)
    (so : Socket) (sa : SockAddr) (memory : Bool) (now : Nat) :
    (k.checkConnect so sa memory now).1 = .pass := by
  obtain heq | ⟨key, hdeny, -⟩ | ⟨_, _, _, hon, -⟩ := k.checkConnect_cases so sa memory now
  · rw [heq]
  · exact absurd (Table.mem_of_find hdeny) (hcache key)
  · rw [hoff] at hon
    cases hon

/-- In visibility a packet is reinjected, once, and nothing else is seen of it. -/
theorem handlePacket_visibility (hmode : d.mode = .visibility) (inp : Input) (os : Os)
    (pkt : Packet) (src : Sockaddr) :
    (handlePacket inp os d pkt src).outs = [.reinject pkt src] := by
  have hcase := handlePacket_cases inp os d pkt src
  generalize handlePacket inp os d pkt src = r at hcase
  cases hcase with
  | unjudged | dns => rfl
  | fast => simp [hmode]
  | slow _ _ _ _ _ _ hslow =>
      cases hslow with
      | settled => simp [hmode]
      | held hv hmode' => simp [hmode] at hmode'
      | learned => rfl

/-- What a quiet step in visibility shows. -/
theorem step_harmless (h : w.step ev = some (w', o)) (hvis : InVisibility w)
    (hsettle : Settling w ev) (hinv : Quiet w) :
    (∀ x ∈ o, x.Harmless) ∧ ∀ inp d pkt src, ev = .daemon inp → w.daemon = some d →
      d.pc = .recv → inp.packet = some (pkt, src) → o = [.reinject pkt src] := by
  refine ⟨?_, ?_⟩
  · obtain ⟨inp, d, rfl, hd, hmain⟩ | hout := step_cases h
    · cases hmain with
      | upcall hpc hurx hdrain =>
          cases drainUpcall_cases hdrain with
          | resolved => simp
          | asked hpath hask _ =>
              -- nothing that is drained is asked about
              obtain h | h := (hsettle d hd).1 _ _ hpc hurx
              · exact absurd h hpath
              · cases hask.symm.trans h
      | packet hpc hpkt hr =>
          rw [← hr, handlePacket_visibility (hvis d hd (by rw [hpc]; rfl))]
          simp [Output.Harmless]
      | moves | exits | answer | effect => simp
    · cases hout with
      | @hook so sa memory k k' r hk hr =>
          have hpass := checkConnect_of_quiet (hinv.cache k hk) (hinv.off k hk) so sa memory
            (w.os.now / 1000)
          rw [hr] at hpass
          simpa [Output.Harmless] using hpass
      | noHook => simp [Output.Harmless]
      | _ => simp
  · rintro inp d pkt src rfl hd hpc hpkt
    have hmode := hvis d hd (by rw [hpc]; rfl)
    simp only [World.step, hd, Option.map_some, Daemon.step, hpc, hpkt, Option.some.injEq,
      Prod.mk.injEq] at h
    rw [← h.2, handlePacket_visibility hmode]

/-- In a reachable state, the tick that switches to visibility ends quiet. -/
theorem quiet_of_switched (hw : Reachable VisibilitySafe w) (hd : w.daemon = some d)
    (hpc : d.pc = .ticking true []) (hmode : d.mode = .visibility) : Quiet w := by
  have hinv := reachable_switching hw
  refine ⟨?_, ?_, fun d' hd' => ?_⟩
  · obtain h | ⟨-, hmem | ⟨-, hmem⟩⟩ := hinv.flushing.ahead d [] hd hpc
    · exact h
    · cases hmem
    · cases hmem
  · obtain hmem | ⟨-, hmem | hoff⟩ := hinv.lowered d [] hd hpc hmode
    · cases hmem
    · cases hmem
    · exact hoff
  · obtain rfl := Option.some.inj (hd.symm.trans hd')
    simp [hpc, Pc.ops]

theorem run_quiet (hshape : Shaped w) (hquiet : Quiet w)
    (hrun : Run World.step (fun w ev => InVisibility w ∧ Settling w ev) w w') :
    Shaped w' ∧ Quiet w' :=
  hrun.invariant (P := fun w => Shaped w ∧ Quiet w) ⟨hshape, hquiet⟩
    fun _ _ _ _ hinv hok hstep =>
      ⟨step_shaped hstep hinv.1, step_quiet hstep hinv.1 hok.1 hok.2 hinv.2⟩

/-- **Visibility blocks nothing.**  Once a tick that has reloaded the policy
ends in visibility, and as long as visibility stays and the work left over from
enforcement that is drained is allowed, every packet is reinjected once and
nothing else is done about it, no prompt is raised, no deny is cached, and the
hook lets every call pass. -/
theorem visibility_blocks_nothing {w'' : World} (hw : Reachable VisibilitySafe w)
    (hd : w.daemon = some d) (hpc : d.pc = .ticking true []) (hmode : d.mode = .visibility)
    (hrun : Run World.step (fun w ev => InVisibility w ∧ Settling w ev) w w')
    (hvis : InVisibility w') (hsettle : Settling w' ev) (h : w'.step ev = some (w'', o)) :
    (∀ x ∈ o, x.Harmless) ∧ w''.os.Cache NoDeny ∧
      ∀ inp d pkt src, ev = .daemon inp → w'.daemon = some d → d.pc = .recv →
        inp.packet = some (pkt, src) → o = [.reinject pkt src] := by
  have hshape := (reachable_switching hw).flushing.shaped
  obtain ⟨hshape', hquiet⟩ := run_quiet hshape (quiet_of_switched hw hd hpc hmode) hrun
  obtain ⟨hharmless, hpacket⟩ := step_harmless h hvis hsettle hquiet
  exact ⟨hharmless, (step_quiet h hshape' hvis hsettle hquiet).cache, hpacket⟩

/-! ## nothing left over -/

omit [Casing] in
/-- No kernel event is on its way to the main thread, and no miss waits. -/
def Idle (w : World) : Prop :=
  ∀ d, w.daemon = some d → d.urx = [] ∧ (∀ r ∈ d.readers, r.holding = none) ∧ d.pendingUpcalls = ∅

/-- Then there is nothing to be allowed. -/
theorem idle_settling (hidle : Idle w) (ev : Event) : Settling w ev := by
  cases ev with
  | daemon inp =>
      intro d hd
      obtain ⟨hurx, -, hpending⟩ := hidle d hd
      exact ⟨fun ev urx _ h => by simp [hurx] at h,
        fun ans p rx _ _ => .inr (by simp [Daemon.waiters, hpending])⟩
  | _ => trivial

/-- The main thread raises no miss without an event. -/
theorem MainStep.idle (hmain : MainStep inp w.os d w' o) (hd : w.daemon = some d)
    (hidle : Idle w) : Idle w' := by
  obtain ⟨hurx, hreaders, hpending⟩ := hidle d hd
  intro d' hd'
  cases hmain with
  | moves =>
      obtain rfl := Option.some.inj hd'
      exact ⟨hurx, hreaders, hpending⟩
  | exits => cases hd'
  | answer hpc hrx hdrain =>
      obtain rfl := Option.some.inj hd'
      obtain ⟨_, _, _, _, -, -, -, rfl⟩ := drainAnswer_cases hdrain
      exact ⟨hurx, hreaders, by simp only [hpending]; rfl⟩
  | upcall hpc hevents => simp [hurx] at hevents
  | @effect op rest extra next os' _ hpc hrun =>
      obtain ⟨d₁, rfl, rfl⟩ := Option.map_eq_some_iff.mp hd'
      have hkeeps := Op.run_keeps hrun
      have hholding : ∀ r ∈ d₁.readers, r.holding = none := by
        intro r hr
        by_contra hsome
        obtain ⟨e, he⟩ := Option.ne_none_iff_exists'.mp hsome
        obtain ⟨r', hr', he'⟩ := (Op.run_holding hrun e).mp ⟨r, hr, he⟩
        rw [hreaders r' hr'] at he'
        cases he'
      refine ⟨hkeeps.urx.trans hurx, hholding, ?_⟩
      by_cases hmark : op = .markOff
      · subst hmark
        simp only [Op.run, Prod.mk.injEq, Option.some.injEq] at hrun
        obtain ⟨-, rfl, -⟩ := hrun
        rfl
      · exact (hkeeps.pendingUpcalls hmark).trans hpending
  | packet hpc hpkt hr =>
      obtain rfl := Option.some.inj hd'
      obtain ⟨_, _, _, _, _, _, heq⟩ := (hr ▸ handlePacket_cases inp w.os d _ _).frame
      simp only [heq]
      exact ⟨hurx, hreaders, hpending⟩

omit [Casing] in
/-- While the upcall is off, a reader has nothing to read. -/
theorem Outside.idle (hout : Outside w ev w' o) (hquiet : Quiet w) (hidle : Idle w) :
    Idle w' := by
  intro d' hd'
  cases hout with
  | startDaemon =>
      obtain rfl := Option.some.inj hd'
      exact ⟨rfl, by rintro _ ⟨⟩, rfl⟩
  | crash => cases hd'
  | signal hd | promptDone hd =>
      obtain rfl := Option.some.inj hd'
      obtain ⟨hurx, hreaders, hpending⟩ := hidle _ hd
      exact ⟨hurx, hreaders, hpending⟩
  | readerEnd hd hr =>
      obtain rfl := Option.some.inj hd'
      obtain ⟨hurx, hreaders, hpending⟩ := hidle _ hd
      exact ⟨hurx, fun r hr => hreaders r (List.mem_of_mem_eraseIdx hr), hpending⟩
  | @readerRead d i r k k' q _ hd hr hreach hread =>
      rw [KMod.read_of_off (hquiet.off k (Os.reach_eq_some.mp hreach).2)] at hread
      cases hread
  | readerSend hd hr hev =>
      rw [(hidle _ hd).2.1 _ (List.mem_of_getElem? hr)] at hev
      cases hev
  | loadModule | unloadModule | noHook | hook | editPolicy | changeEnv | wait | pfAnchor
  | setFailmode | kernelReset => exact hidle d' hd'

/-- While the upcall is off, nothing new comes on its way. -/
theorem step_idle (h : w.step ev = some (w', o)) (hquiet : Quiet w) (hidle : Idle w) :
    Idle w' := by
  obtain ⟨inp, d, rfl, hd, hmain⟩ | hout := step_cases h
  · exact hmain.idle hd hidle
  · exact hout.idle hquiet hidle

/-- A run that stays in visibility, and starts with nothing left over, meets
nothing left over. -/
theorem run_idle (hshape : Shaped w) (hquiet : Quiet w) (hidle : Idle w)
    (hrun : Run World.step (fun w _ => InVisibility w) w w') :
    Run World.step (fun w ev => InVisibility w ∧ Settling w ev) w w' ∧ Idle w' := by
  induction hrun with
  | refl => exact ⟨.refl, hidle⟩
  | tail _ hvis hstep ih =>
      obtain ⟨hrun, hidle⟩ := ih
      have hquiet := (run_quiet hshape hquiet hrun).2
      exact ⟨.tail hrun ⟨hvis, idle_settling hidle _⟩ hstep, step_idle hstep hquiet hidle⟩

instance (w : World) : Decidable (InVisibility w) :=
  decidable_of_iff ((w.daemon.all fun d => !d.pc.inLoop || d.mode = .visibility) = true) (by
    simp only [InVisibility, Option.all_eq_true, Bool.or_eq_true, Bool.not_eq_true',
      decide_eq_true_eq, Bool.eq_false_iff, or_iff_not_imp_left, not_not])

omit [Casing] in
/-- A tick has just ended in visibility, after a reload. -/
def switched (w : World) : Bool :=
  w.daemon.any fun d => d.pc = .ticking true [] ∧ d.mode = .visibility

theorem visibilitySafe_of_untroubled (hev : Untroubled ev) (hreload : ReloadsKernel w ev = true) :
    VisibilitySafe w ev :=
  ⟨flushSafe_of_untroubled hev hreload, fun _ _ h _ _ => (h ▸ hev : Untroubled (.daemon _)).1 0⟩

omit [Casing] in
/-- A policy that names visibility, and still the kernel backend. -/
def visibilityText : String := "attribution kernel\nmode visibility\n"

omit [Casing] in
/-- After the switch, a datagram that no rule allows goes on. -/
theorem visibility_blocks_nothing_datagram :
    letI := asciiCasing
    ∃ (w w' : World) (d : Daemon), w.daemon = some d ∧ d.mode = .visibility ∧
      w.step (.daemon { packet := some (datagram 9, ⟨0, 0⟩) }) =
        some (w', [.reinject (datagram 9) ⟨0, 0⟩]) := by
  let _ := asciiCasing
  obtain ⟨w, hw, hp⟩ := exists_reachable_by_exec (fun w ev => ReloadsKernel w ev = true)
    (World.withPolicy "attribution kernel\n") ⟨rfl, rfl⟩ (kernelEvents ++ editEvents visibilityText 13)
    (fun w => switched w && (w.daemon.all fun d =>
        d.urx = [] ∧ (∀ r ∈ d.readers, r.holding = none) ∧ d.pendingUpcalls.entries = []) &&
      (exec World.step (fun w _ => InVisibility w) w [.daemon {}]).any fun w' =>
        InVisibility w' ∧ w'.daemon.any fun d => d.pc = .recv)
    (by decide +kernel)
  simp only [Bool.and_eq_true] at hp
  obtain ⟨⟨hswitched, hidle⟩, hexec⟩ := hp
  obtain ⟨d, hd, hpc⟩ := (Option.any_eq_true _ _).mp hswitched
  rw [decide_eq_true_eq] at hpc
  obtain ⟨w', hrun, hp'⟩ := exists_run_of_exec hexec
  rw [decide_eq_true_eq] at hp'
  obtain ⟨d', hd', hpc'⟩ := (Option.any_eq_true _ _).mp hp'.2
  rw [decide_eq_true_eq] at hpc'
  have hsafe : Reachable VisibilitySafe w := hw.mono fun w ev h => by
    refine visibilitySafe_of_untroubled ?_ h.1
    obtain h | h := List.mem_append.mp h.2
    · exact untroubled_kernelEvents ev h
    · exact untroubled_editEvents _ _ ev h
  have hnothing : Idle w := by
    intro d₁ hd₁
    simp only [hd₁, Option.all_some, decide_eq_true_eq] at hidle
    exact ⟨hidle.1, hidle.2.1, AList.ext hidle.2.2⟩
  have hquiet := quiet_of_switched hsafe hd hpc.1 hpc.2
  have hshape := (reachable_switching hsafe).flushing.shaped
  obtain ⟨hrun', hidle'⟩ := run_idle hshape hquiet hnothing (hrun.mono fun _ _ h => h.1)
  obtain ⟨w'', o, hstep⟩ : ∃ w'' o,
      w'.step (.daemon { packet := some (datagram 9, ⟨0, 0⟩) }) = some (w'', o) :=
    ⟨_, _, by rw [World.step, hd']; rfl⟩
  obtain ⟨-, -, hpacket⟩ := visibility_blocks_nothing hsafe hd hpc.1 hpc.2 hrun' hp'.1
    (idle_settling hidle' _) hstep
  have hreinject := hpacket _ d' _ _ rfl hd' hpc' rfl
  exact ⟨w', w'', d', hd', hp'.1 d' hd' (by rw [hpc']; rfl), hreinject ▸ hstep⟩

omit [Casing] in
/-- A miss that was read under enforcement raises a prompt in visibility,
although the device does not fail. -/
theorem visibility_prompts :
    letI := asciiCasing
    ¬ ∀ (w w' w'' : World) (ev : Event) (o : List Output),
      Reachable (fun _ ev => Untroubled ev) w → switched w = true →
      Run World.step (fun w _ => InVisibility w) w w' → InVisibility w' →
      w'.step ev = some (w'', o) → ∀ x ∈ o, x.Harmless := by
  let _ := asciiCasing
  intro h
  obtain ⟨w, hw, hp⟩ := exists_reachable_by_exec (fun _ _ => True)
    (World.withPolicy "attribution kernel\n") ⟨rfl, rfl⟩
    (kernelEvents ++ [sendEvent 443, .readerRead 0 false] ++ editEvents visibilityText 13)
    (fun w => switched w && (exec World.step (fun w _ => InVisibility w) w
        (.readerSend 0 :: List.replicate 4 (.daemon {}))).any fun w' =>
      InVisibility w' ∧ (w'.step (.daemon {})).any fun (_, o) =>
        o.any fun x => match x with | .prompt _ => true | _ => false)
    (by decide +kernel)
  rw [Bool.and_eq_true] at hp
  obtain ⟨w', hrun, hp'⟩ := exists_run_of_exec hp.2
  rw [decide_eq_true_eq] at hp'
  obtain ⟨⟨w'', o⟩, hstep, hprompt⟩ := (Option.any_eq_true _ _).mp hp'.2
  obtain ⟨x, hx, hprompt⟩ := List.any_eq_true.mp hprompt
  have huntroubled : Reachable (fun _ ev => Untroubled ev) w := hw.mono fun w ev h => by
    simp only [List.mem_append, List.mem_cons, List.not_mem_nil, or_false] at h
    obtain ⟨-, (h | rfl | rfl) | h⟩ := h
    · exact untroubled_kernelEvents ev h
    · trivial
    · trivial
    · exact untroubled_editEvents _ _ ev h
  have hharmless := h w w' w'' _ o huntroubled hp.1 (hrun.mono fun _ _ h => h.1) hp'.1 hstep x hx
  cases x with
  | prompt p => exact hharmless
  | reinject | reset | hook => cases hprompt

end Pfsnitch
