import Pfsnitch.Daemon.Misses
import Mathlib.Data.List.Perm.Basic

/-!
# Pfsnitch.Questions

The prompts that are out, the questions that count as asked, and the misses that wait.

A prompt is raised from two places, by the packet loop and by the drain of kernel events, and
ends in a third, the drain of answers; each computes the question from what it has at hand.
`asks_match_prompts` says that the three agree in every run, and what becomes of the misses
that wait for an answer.
-/

namespace Pfsnitch

open Lib

variable [Casing]

variable {w w' : World} {d d' : Daemon} {ev : Event} {o : List Output} {inp : Input} {os : Os}

/-- The questions of the prompts that have been spawned and whose answer has not been drained. -/
def Daemon.questions (d : Daemon) : List AskKey :=
  d.prompts.map (·.pending.key) ++ d.rx.map (·.2.key)

/-- What is being asked are the questions of the prompts that are out, each is out once, and no
miss waits without a prompt. -/
structure Daemon.Asked (d : Daemon) : Prop where
  asking : ∀ key, key ∈ d.asking ↔ key ∈ d.questions
  once : d.questions.Nodup
  waiting : ∀ key, key ∈ d.pendingUpcalls → key ∈ d.asking

/-! ## raising a prompt -/

/-- A prompt that is raised under its own question. -/
theorem Daemon.Asked.raise (h : d.Asked) {key : AskKey} {p : Prompt} (hp : p.pending.key = key) :
    (Pfsnitch.raise d key p).1.Asked ∧ key ∈ (Pfsnitch.raise d key p).1.asking := by
  unfold Pfsnitch.raise
  split
  · rename_i hkey
    exact ⟨h, hkey⟩
  · rename_i hkey
    have hnew : key ∉ d.questions := fun hmem => hkey ((h.asking key).mpr hmem)
    have hperm : (Daemon.questions { d with
        asking := insert key d.asking, prompts := d.prompts ++ [p] }).Perm
          (key :: d.questions) := by
      simp only [Daemon.questions, List.map_append, List.map_cons, List.map_nil, hp,
        List.append_assoc, List.singleton_append]
      exact List.perm_middle
    refine ⟨⟨fun key' => ?_, ?_, fun key' hw => ?_⟩, Finset.mem_insert_self _ _⟩
    · rw [hperm.mem_iff, List.mem_cons, Finset.mem_insert, h.asking]
    · exact hperm.nodup_iff.mpr (List.nodup_cons.mpr ⟨hnew, h.once⟩)
    · exact Finset.mem_insert_of_mem (h.waiting key' hw)

/-- A miss that waits for a question that is being asked. -/
theorem Daemon.Asked.addWaiter (h : d.Asked) {key : AskKey} (hkey : key ∈ d.asking) (wtr : Waiter) :
    (Pfsnitch.addWaiter d key wtr).Asked := by
  refine ⟨h.asking, h.once, fun key' hw => ?_⟩
  obtain rfl | hold := (AList.mem_insert _).mp hw
  · exact hkey
  · exact h.waiting key' hold

theorem upcallPrompt_key (ev : KernEvent) (changed : Bool) (hostname : Str) :
    (upcallPrompt ev changed hostname).pending.key =
      (ev.path, askKey (nonEmpty hostname) ev.dst) := rfl

theorem packetPrompt_key (d : Daemon) (f : Flow) (att : Option Attribution) (changed : Bool) :
    (packetPrompt d f att changed).pending.key =
      ((att.map (·.path)).getD [], askKey (nonEmpty ((d.names.nameFor f.dst).getD [])) f.dst) := rfl

/-- Kernel events are asked under their prompt's question. -/
theorem Daemon.Asked.drainUpcall (h : d.Asked) (ev : KernEvent) :
    (Pfsnitch.drainUpcall inp os d ev).2.1.Asked := by
  have answered : ∀ kern, Daemon.Asked { d with kern } :=
    fun _ => ⟨h.asking, h.once, h.waiting⟩
  simp only [Pfsnitch.drainUpcall]
  split
  · exact answered _
  · split
    · exact answered _
    · exact answered _
    · obtain ⟨hraised, hkey⟩ := h.raise (upcallPrompt_key ev
        (idChanged d.pol os.env ev.path) ((d.names.nameFor ev.dst).getD []))
      exact hraised.addWaiter hkey _

/-- So are packets. -/
theorem Daemon.Asked.slowPath (h : d.Asked) (pkt : Packet) (src : Sockaddr) (f : Flow) :
    (Pfsnitch.slowPath inp os d pkt src f).daemon.Asked := by
  have same : ∀ kern decided pol polMtime,
      Daemon.Asked { d with kern, decided, pol, polMtime } :=
    fun _ _ _ _ => ⟨h.asking, h.once, h.waiting⟩
  have pushed : ∀ kern decided exe v,
      (pushSettled inp os { d with kern, decided } f exe v).2.Asked := by
    intro kern decided exe v
    obtain ⟨-, heq⟩ | ⟨_, -, -, -, heq⟩ := pushSettled_cases (Prod.eta _).symm <;> rw [heq] <;>
      exact same _ _ _ _
  simp only [Pfsnitch.slowPath]
  split
  · exact pushed _ _ _ _
  · exact pushed _ _ _ _
  · split
    · exact ((same _ _ _ _).raise (packetPrompt_key _ f _ _)).1
    · exact same _ _ _ _

theorem Daemon.Asked.handlePacket (h : d.Asked) (pkt : Packet) (src : Sockaddr) :
    (Pfsnitch.handlePacket inp os d pkt src).daemon.Asked := by
  unfold Pfsnitch.handlePacket
  repeat' split
  all_goals first
    | exact h.slowPath pkt src _
    | exact ⟨h.asking, h.once, h.waiting⟩

/-! ## the other steps -/

/-- The key of the answer that is drained is asked once, and no more. -/
theorem Daemon.Asked.drain (h : d.Asked) {ans : Answer} {p : Pending}
    {rx : List (Answer × Pending)} (hrx : d.rx = (ans, p) :: rx) {os' : Os}
    (hdrain : drainAnswer inp os { d with rx } ans p = (os', d')) :
    d'.Asked ∧ p.key ∉ d'.asking ∧ p.key ∉ d'.pendingUpcalls := by
  obtain ⟨_, kern, pol, _, -, -, -, rfl⟩ := drainAnswer_cases hdrain
  have hperm : d.questions.Perm (p.key :: Daemon.questions { d with rx }) := by
    simp only [Daemon.questions, hrx, List.map_cons]
    exact List.perm_middle
  obtain ⟨hdone, honce⟩ := List.nodup_cons.mp (hperm.nodup_iff.mp h.once)
  have hwaits : ∀ key, key ∈ d.pendingUpcalls.erase p.key ↔ key ≠ p.key ∧ key ∈ d.pendingUpcalls :=
    fun _ => AList.mem_erase
  refine ⟨⟨fun key => ?_, honce, fun key hw => ?_⟩, Finset.notMem_erase _ _,
    fun hw => ((hwaits _).mp hw).1 rfl⟩
  · change key ∈ d.asking.erase p.key ↔ key ∈ Daemon.questions { d with rx }
    rw [Finset.mem_erase, h.asking, hperm.mem_iff, List.mem_cons]
    constructor
    · rintro ⟨hne, hkey | hkey⟩
      · exact absurd hkey hne
      · exact hkey
    · exact fun hkey => ⟨fun heq => hdone (heq ▸ hkey), .inr hkey⟩
  · obtain ⟨hne, hw⟩ := (hwaits key).mp hw
    exact Finset.mem_erase.mpr ⟨hne, h.waiting key hw⟩

theorem MainStep.keeps_asked (hstep : MainStep inp os d w' o) (hd' : w'.daemon = some d')
    (h : d.Asked) : d'.Asked := by
  cases hstep with
  | moves =>
      obtain rfl := Option.some.inj hd'
      exact ⟨h.asking, h.once, h.waiting⟩
  | exits => cases hd'
  | answer hpc hrx hdrain =>
      obtain rfl := Option.some.inj hd'
      exact (h.drain hrx hdrain).1
  | @upcall ev urx _ _ _ hpc hurx hdrain =>
      obtain rfl := Option.some.inj hd'
      have hbefore : Daemon.Asked { d with urx } := ⟨h.asking, h.once, h.waiting⟩
      have hkept : (Pfsnitch.drainUpcall inp os { d with urx } ev).2.1.Asked :=
        hbefore.drainUpcall ev
      rwa [hdrain] at hkept
  | @effect op _ _ _ _ _ hpc hrun =>
      obtain ⟨d₁, rfl, rfl⟩ := Option.map_eq_some_iff.mp hd'
      obtain ⟨hasking, hprompts⟩ := Op.run_questions hrun
      have hquestions : d₁.questions = d.questions := by
        rw [Daemon.questions, hprompts, (Op.run_keeps hrun).rx, Daemon.questions]
      refine ⟨fun key => ?_, ?_, fun key hw => ?_⟩
      · exact (hasking ▸ h.asking key).trans (iff_of_eq (congrArg (key ∈ ·) hquestions.symm))
      · exact (hquestions ▸ h.once :)
      · refine hasking ▸ h.waiting key ?_
        by_cases hop : op = .markOff
        · subst hop
          simp only [Op.run, Prod.mk.injEq, Option.some.injEq] at hrun
          obtain ⟨-, rfl, -⟩ := hrun
          exact absurd hw (AList.notMem_empty key)
        · exact (Op.run_keeps hrun).pendingUpcalls hop ▸ hw
  | @packet pkt src _ hpc hpkt hr =>
      obtain rfl := Option.some.inj hd'
      have hkept : (Pfsnitch.handlePacket inp os d pkt src).daemon.Asked := h.handlePacket pkt src
      rw [hr] at hkept
      exact ⟨hkept.asking, hkept.once, hkept.waiting⟩

/-- A prompt that ends leaves its answer, and its question is as open as before. -/
theorem questions_promptDone {i : Nat} {p : Prompt} (hp : d.prompts[i]? = some p)
    (ans : Answer) : (Daemon.questions { d with
      prompts := d.prompts.eraseIdx i, rx := d.rx ++ [(ans, p.pending)] }).Perm d.questions := by
  obtain ⟨hi, rfl⟩ := List.getElem?_eq_some_iff.mp hp
  simp only [Daemon.questions, List.map_append, List.map_cons, List.map_nil]
  have hout := (List.getElem_cons_eraseIdx_perm hi).map fun p : Prompt => p.pending.key
  rw [List.map_cons] at hout
  refine .trans ?_ (hout.append_right _)
  rw [← List.append_assoc]
  exact List.perm_append_singleton _ _

/-- Around the main thread the questions stay what they are. -/
theorem Outside.keeps_asked (hout : Outside w ev w' o) (hd' : w'.daemon = some d')
    (h : ∀ d, w.daemon = some d → d.Asked) : d'.Asked := by
  cases hout with
  | startDaemon =>
      obtain rfl := Option.some.inj hd'
      refine ⟨fun key => ?_, List.nodup_nil, fun key hw => absurd hw (AList.notMem_empty key)⟩
      simp [Daemon.new, Daemon.questions]
  | crash => cases hd'
  | @promptDone d i ans p hd hp =>
      obtain rfl := Option.some.inj hd'
      have hperm := questions_promptDone hp ans
      have hbefore := h d hd
      exact ⟨fun key => (hbefore.asking key).trans hperm.mem_iff.symm,
        hperm.nodup_iff.mpr hbefore.once, hbefore.waiting⟩
  | signal hd | readerEnd hd | readerRead hd | readerSend hd =>
      obtain rfl := Option.some.inj hd'
      exact ⟨(h _ hd).asking, (h _ hd).once, (h _ hd).waiting⟩
  | loadModule | unloadModule | noHook | hook | editPolicy | changeEnv | wait | pfAnchor |
    setFailmode | kernelReset => exact h d' hd'

theorem reachable_asked {ok : World → Event → Prop} (hw : Reachable ok w)
    (hd : w.daemon = some d) : d.Asked := by
  obtain ⟨w₀, hinit, hrun⟩ := hw
  refine hrun.invariant (P := fun w => ∀ d, w.daemon = some d → d.Asked) hinit.no_daemon ?_ d hd
  rintro w ev w' o h - hstep d' hd'
  obtain ⟨inp, d, rfl, hd, hmain⟩ | hout := step_cases hstep
  · exact hmain.keeps_asked hd' (h d hd)
  · exact hout.keeps_asked hd' h

/-! ## what becomes of a waiter -/

/-- The answer that is drained next, if the step is a drain of answers. -/
def Daemon.Drains (d : Daemon) (ans : Answer) (p : Pending) : Prop :=
  d.pc = .answers ∧ ∃ rx, d.rx = (ans, p) :: rx

/-- A waiter goes when its question is answered, or when the upcall is switched off. -/
theorem MainStep.keeps_waiter (hstep : MainStep inp os d w' o) (hd' : w'.daemon = some d')
    {key : AskKey} {wtr : Waiter} (h : wtr ∈ d.waiters key) :
    wtr ∈ d'.waiters key ∨ (∃ ans p, d.Drains ans p ∧ p.key = key) ∨
      d.pc.ops.head? = some .markOff := by
  have same : d'.pendingUpcalls = d.pendingUpcalls → wtr ∈ d'.waiters key := fun heq => by
    rwa [Daemon.waiters, heq]
  cases hstep with
  | moves =>
      obtain rfl := Option.some.inj hd'
      exact .inl h
  | exits => cases hd'
  | @answer ans p rx _ _ hpc hrx hdrain =>
      obtain rfl := Option.some.inj hd'
      by_cases hkey : p.key = key
      · exact .inr (.inl ⟨ans, p, ⟨hpc, rx, hrx⟩, hkey⟩)
      · obtain ⟨_, _, _, _, -, -, -, rfl⟩ := drainAnswer_cases hdrain
        left
        unfold Daemon.waiters at h ⊢
        rwa [AList.lookup_erase_ne (Ne.symm hkey)]
  | upcall hpc hurx hdrain =>
      obtain rfl := Option.some.inj hd'
      left
      cases drainUpcall_cases hdrain with
      | resolved => exact h
      | asked _ _ hraise =>
          obtain ⟨⟨_, _, rfl⟩, -⟩ := raise_cases hraise
          rw [Daemon.waiters_addWaiter]
          split
          · rename_i hkey
            exact List.mem_append_left _ (hkey ▸ h)
          · exact h
  | @effect op _ _ _ _ _ hpc hrun =>
      obtain ⟨d₁, rfl, rfl⟩ := Option.map_eq_some_iff.mp hd'
      by_cases hop : op = .markOff
      · exact .inr (.inr (by rw [hpc.ops.1, hop]; rfl))
      · exact .inl (same ((Op.run_keeps hrun).pendingUpcalls hop))
  | packet hpc hpkt hr =>
      obtain rfl := Option.some.inj hd'
      obtain ⟨_, _, _, _, _, _, hframe⟩ := (hr ▸ handlePacket_cases inp os d _ _).frame
      exact .inl (same (by rw [hframe]))

omit [Casing] in
/-- Resolving ids through a working handle leaves no request under them. -/
theorem resolveAll_resolves {k : KMod} {kern : Option Handle} (hdev : os.Device kern k)
    (hok : ∀ n, inp.ioctl n = .ok) (hsound : k.Sound) (v : KVerdict) (n : Nat) (ids : List Nat) :
    ∃ k', (resolveAll inp v n ids os kern).1.kmod = some k' ∧ k'.Sound ∧
      ∀ r, r ∈ k'.reqs ↔ r ∈ k.reqs ∧ r.id ∉ ids := by
  induction ids generalizing os kern k n with
  | nil => exact ⟨k, hdev.kmod, hsound, by simp⟩
  | cons id ids ih =>
      have hioctl : kernIoctl os kern (inp.ioctl n) (fun k => k.resolve id v (inp.memory n)) =
          ({ os with kmod := some (k.resolve id v (inp.memory n)) }, kern) := by
        obtain ⟨h, rfl, hdead, hreach⟩ := hdev
        simp [kernIoctl, Os.ioctl, hdead, hreach, hok n]
      rw [resolveAll_cons, hioctl]
      have hdev' : Os.Device { os with kmod := some (k.resolve id v (inp.memory n)) } kern
          (k.resolve id v (inp.memory n)) := by
        obtain ⟨h, rfl, hdead, hreach⟩ := hdev
        exact ⟨h, rfl, hdead, Os.reach_eq_some.mpr ⟨(Os.reach_eq_some.mp hreach).1, rfl⟩⟩
      obtain ⟨k', hk', hsound', hreqs⟩ := ih hdev' (hsound.resolve id v (inp.memory n)) (n + 1)
      refine ⟨k', hk', hsound', fun r => ?_⟩
      rw [hreqs, hsound.mem_resolve, List.mem_cons, not_or, and_assoc]

/-! ## the questions -/

/-- After the drain of an answer nothing is asked or waits under its key, and through a working
handle the requests of all that waited are resolved. -/
structure Drained (inp : Input) (os : Os) (d : Daemon) (p : Pending) (w' : World) : Prop where
  unasked : ∀ d', w'.daemon = some d' → p.key ∉ d'.asking ∧ p.key ∉ d'.pendingUpcalls
  resolved : ∀ k, os.Device d.kern k → (∀ n, inp.ioctl n = .ok) →
    ∃ k', w'.os.kmod = some k' ∧ ∀ wtr ∈ d.waiters p.key, ∀ r ∈ k'.reqs, r.id ≠ wtr.ev.id

/-- What a step does with a miss that waits for an answer. -/
inductive WaiterStep (d : Daemon) (w' : World) (key : AskKey) (wtr : Waiter) : Event → Prop
  | kept {ev : Event} {d' : Daemon} (hd' : w'.daemon = some d') (h : wtr ∈ d'.waiters key) :
      WaiterStep d w' key wtr ev
  | drained {inp : Input} {ans : Answer} {p : Pending} (h : d.Drains ans p) (hkey : p.key = key) :
      WaiterStep d w' key wtr (.daemon inp)
  | switched {inp : Input} (h : d.pc.ops.head? = some .markOff) :
      WaiterStep d w' key wtr (.daemon inp)
  | gone {ev : Event} (h : w'.daemon = none) : WaiterStep d w' key wtr ev

theorem MainStep.drained (hstep : MainStep inp os d w' o) (h : d.Asked)
    (hsound : os.Module KMod.Sound) {ans : Answer} {p : Pending} (hdrain : d.Drains ans p) :
    Drained inp os d p w' := by
  obtain ⟨hpc, rx, hrx⟩ := hdrain
  cases hstep with
  | @answer ans' p' rx' os' d' hpc' hrx' hdrain =>
      obtain ⟨hans, rfl⟩ := List.cons.inj (hrx.symm.trans hrx')
      obtain ⟨rfl, rfl⟩ := Prod.mk.inj hans
      refine ⟨fun _ hd' => ?_, fun k hdev hok => ?_⟩
      · obtain rfl := Option.some.inj hd'
        exact (h.drain hrx hdrain).2
      · obtain ⟨os₁, kern, _, ls, hr, -, rfl, -⟩ := drainAnswer_cases hdrain
        obtain ⟨k', hk', -, hreqs⟩ := resolveAll_resolves hdev hok (hsound k hdev.kmod)
          (toKVerdict ans.approves) 0 ((d.waiters p.key).map (·.ev.id))
        have hos : os₁.kmod = some k' := by
          rw [← hk']
          exact congrArg (fun r => r.1.kmod) hr.symm
        refine ⟨k', (Os.appendPolicy_kmod _ _ _).trans hos, fun wtr hwtr r hr heq => ?_⟩
        exact ((hreqs r).mp hr).2 (heq ▸ List.mem_map_of_mem hwtr)
  | moves hm => cases hm <;> simp_all
  | exits hpc' | upcall hpc' | packet hpc' =>
      rw [hpc] at hpc'
      cases hpc'
  | effect hpc' =>
      rw [hpc] at hpc'
      cases hpc'

/-- **One prompt per question, no waiter without a prompt**, in every state that a run reaches;
and from there, what a drain does and how a waiter ends. -/
theorem asks_match_prompts (hw : Reachable (fun _ _ => True) w) (hd : w.daemon = some d) :
    d.Asked ∧ ∀ ev w' o, w.step ev = some (w', o) →
      (∀ inp ans p, ev = .daemon inp → d.Drains ans p → Drained inp w.os d p w') ∧
      ∀ key, ∀ wtr ∈ d.waiters key, WaiterStep d w' key wtr ev := by
  refine ⟨reachable_asked hw hd, fun ev w' o hstep => ⟨?_, fun key wtr hwtr => ?_⟩⟩
  · rintro inp ans p rfl hdrain
    obtain ⟨d₁, hd₁, hmain⟩ := Option.map_eq_some_iff.mp hstep
    obtain rfl := Option.some.inj (hd₁.symm.trans hd)
    exact (mainStep_of_step hmain).drained (reachable_asked hw hd) (reachable_sound hw) hdrain
  · cases hd' : w'.daemon with
    | none => exact .gone hd'
    | some d' =>
        obtain ⟨inp, d₁, rfl, hd₁, hmain⟩ | hout := step_cases hstep
        · obtain rfl := Option.some.inj (hd₁.symm.trans hd)
          obtain hkept | ⟨ans, p, hdrain, hkey⟩ | hoff := hmain.keeps_waiter hd' hwtr
          · exact .kept hd' hkept
          · exact .drained hdrain hkey
          · exact .switched hoff
        · refine .kept hd' ?_
          obtain hnone | ⟨_, hnone, -⟩ | ⟨d₁, d₂, hd₁, hd₂, _, _, _, _, _, hsame⟩ := hout.daemon
          · rw [hd'] at hnone
            cases hnone
          · rw [hd] at hnone
            cases hnone
          · obtain rfl := Option.some.inj (hd₁.symm.trans hd)
            obtain rfl := Option.some.inj (hd₂.symm.trans hd')
            rw [hsame]
            exact hwtr

omit [Casing] in
/-- While the prompt for a miss of `/a` is out, its question is asked and the miss waits. -/
theorem asks_match_prompt_of_miss :
    letI := asciiCasing
    ∃ (w : World) (d : Daemon), w.daemon = some d ∧ d.prompts.length = 1 ∧
      d.pendingUpcalls.entries.length = 1 ∧ d.Asked := by
  let _ := asciiCasing
  obtain ⟨w, hw, hp⟩ := exists_reachable_of_exec (fun _ _ => True)
    (World.withPolicy "attribution kernel\n") ⟨rfl, rfl⟩ (kernelEvents ++ missEvents [443])
    (fun w => w.daemon.any fun d => d.prompts.length = 1 ∧ d.pendingUpcalls.entries.length = 1)
    (by decide +kernel)
  obtain ⟨d, hd, hp⟩ := (Option.any_eq_true _ _).mp hp
  obtain ⟨hprompts, hwaiting⟩ := of_decide_eq_true hp
  exact ⟨w, d, hd, hprompts, hwaiting, (asks_match_prompts hw hd).1⟩

omit [Casing] in
/-- The backend is switched to procstat while the reader holds a miss of `/a`; the miss is
drained, asked about and approved without a handle. -/
def lateEvents : List Event :=
  kernelEvents ++ [sendEvent 443, .readerRead 0 false,
    .editPolicy (some (.ofText "attribution procstat\n".toList 2)), .wait 1000] ++
  List.replicate 12 (.daemon {}) ++ [.readerSend 0] ++ List.replicate 7 (.daemon {}) ++
  [.promptDone 0 .allowConn] ++ List.replicate 4 (.daemon {})

omit [Casing] in
theorem untroubled_lateEvents : ∀ ev ∈ lateEvents, Untroubled ev := by
  simp only [lateEvents, List.mem_append]
  rintro ev ((((((h | h) | h) | h) | h) | h) | h)
  · exact untroubled_kernelEvents ev h
  · simp only [List.mem_cons, List.not_mem_nil, or_false] at h
    obtain rfl | rfl | rfl | rfl := h <;> trivial
  · exact untroubled_replicate _ ev h
  · obtain rfl := List.mem_singleton.mp h
    trivial
  · exact untroubled_replicate _ ev h
  · obtain rfl := List.mem_singleton.mp h
    trivial
  · exact untroubled_replicate _ ev h

omit [Casing] in
/-- Its answer reaches no request, though nothing has failed. -/
theorem drain_leaves_late :
    letI := asciiCasing
    ¬ ∀ (w w' : World) (d : Daemon) (inp : Input) (ans : Answer) (p : Pending) (o : List Output),
      Reachable (fun _ ev => Untroubled ev) w → w.daemon = some d → d.Drains ans p →
      Untroubled (.daemon inp) → w.step (.daemon inp) = some (w', o) →
      ∀ wtr ∈ d.waiters p.key, ∀ k', w'.os.kmod = some k' → ∀ r ∈ k'.reqs, r.id ≠ wtr.ev.id := by
  let _ := asciiCasing
  intro h
  obtain ⟨w, hw, hp⟩ := exists_reachable_by_exec (fun _ _ => True)
    (World.withPolicy "attribution kernel\n") ⟨rfl, rfl⟩ lateEvents
    (fun w => w.daemon.any fun d => d.pc = .answers ∧ (d.rx.head?.any fun a =>
      (d.waiters a.2.key).any fun wtr => (w.step (.daemon {})).any fun r =>
        r.1.os.kmod.any fun k => k.reqs.any fun r => r.id = wtr.ev.id) = true)
    (by decide +kernel)
  have hok : Reachable (fun _ ev => Untroubled ev) w :=
    hw.mono fun _ ev hev => untroubled_lateEvents ev hev.2
  obtain ⟨d, hd, hp⟩ := (Option.any_eq_true _ _).mp hp
  obtain ⟨hpc, hp⟩ := of_decide_eq_true hp
  obtain ⟨⟨ans, p⟩, hrx, hp⟩ := (Option.any_eq_true _ _).mp hp
  obtain ⟨rx, hrx⟩ := List.head?_eq_some_iff.mp hrx
  obtain ⟨wtr, hwtr, hp⟩ := List.any_eq_true.mp hp
  obtain ⟨⟨w', o⟩, hstep, hp⟩ := (Option.any_eq_true _ _).mp hp
  obtain ⟨k', hk', hp⟩ := (Option.any_eq_true _ _).mp hp
  obtain ⟨r, hr, hid⟩ := List.any_eq_true.mp hp
  exact h w w' d {} ans p o hok hd ⟨hpc, rx, hrx⟩ ⟨fun _ => rfl, rfl⟩ hstep wtr hwtr k' hk' r hr
    (of_decide_eq_true hid)

end Pfsnitch
