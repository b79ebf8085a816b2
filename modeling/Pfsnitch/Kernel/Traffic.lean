import Pfsnitch.Kernel.Queue
import Pfsnitch.Lib.Run

/-!
# Pfsnitch.Kernel.Traffic

The upcall queue at work: misses, reads, resolves, sweeps, switches and closes
in any order.

`pfsn_read` copies an event to its reader outside the lock, so anything can
happen between the hand-out and the end of the copy.  A *log* records, newest
first, what arrived, what was handed out and which copies failed.
`queue_sound` says what holds of the queue and of the log in every run.
-/

namespace Pfsnitch

open Lib

/-! ## the system -/

/-- What the log records of a request. -/
inductive Trace where
  | arrived (id : Nat)
  | handed (id : Nat)
  | failed (id : Nat)
deriving DecidableEq, Repr

/-- The module, the events that are being copied out, the clock in seconds and
the log. -/
structure Traffic where
  kmod : KMod
  copying : List Nat
  now : Nat
  log : List Trace

/-- What can happen to the queue. -/
inductive TrafficEvent where
  /-- A process connects or sends. -/
  | hook (so : Socket) (sa : SockAddr) (memory : Bool)
  /-- `pfsn_read`, up to the copy. -/
  | read
  /-- The `i`-th copy ends. -/
  | copied (i : Nat) (fault : Bool)
  | resolve (id : Nat) (v : KVerdict) (memory : Bool)
  | gc
  | upcallSet (on : Bool)
  | close
  /-- Seconds pass. -/
  | wait (secs : Nat)

namespace Traffic

/-- One event; a read happens when there is something to hand out, a copy ends
when it has begun. -/
def step (q : Traffic) : TrafficEvent → Option (Traffic × List HookResult)
  | .hook so sa memory =>
    let (r, k) := q.kmod.checkConnect so sa memory q.now
    -- a request that was queued took the next id
    let log := if k.nextId = q.kmod.nextId then q.log else .arrived q.kmod.nextId :: q.log
    some ({ q with kmod := k, log }, [r])
  | .read =>
    match q.kmod.read with
    | (.event r, k) =>
      some ({ q with kmod := k, copying := q.copying ++ [r.id], log := .handed r.id :: q.log }, [])
    | _ => none
  | .copied i fault =>
    match q.copying[i]? with
    | some id =>
      let copying := q.copying.eraseIdx i
      if fault then
        some ({ q with kmod := q.kmod.redeliver id, copying, log := .failed id :: q.log }, [])
      else some ({ q with copying }, [])
    | none => none
  | .resolve id v memory => some ({ q with kmod := q.kmod.resolve id v memory }, [])
  | .gc => some ({ q with kmod := q.kmod.reqGc q.now }, [])
  | .upcallSet on => some ({ q with kmod := q.kmod.upcallSet on }, [])
  | .close => some ({ q with kmod := q.kmod.devClose }, [])
  | .wait secs => some ({ q with now := q.now + secs }, [])

/-- A module that has just been loaded, with either failmode, at any time. -/
def Initial (q : Traffic) : Prop :=
  ∃ m now, q = ⟨{ failmode := m }, [], now, []⟩

/-- A state some run reaches from a freshly loaded module. -/
def Reachable (q : Traffic) : Prop := ∃ q₀, q₀.Initial ∧ Run step (fun _ _ => True) q₀ q

/-! ## what is claimed of the log -/

/-- An event is handed out a second time only after a copy of it has failed. -/
def RedeliversFailed (log : List Trace) : Prop :=
  ∀ later between earlier id,
    log = later ++ .handed id :: (between ++ .handed id :: earlier) → .failed id ∈ between

/-- What was handed out before a request is first handed out had arrived before it. -/
def DeliversInOrder (log : List Trace) : Prop :=
  ∀ later earlier id, log = later ++ .handed id :: earlier → .handed id ∉ earlier →
    ∀ id', .handed id' ∈ earlier → [.arrived id, .arrived id'].Sublist earlier

/-- Is the last that the log says of an id that it was handed out? -/
def outstanding (id : Nat) : List Trace → Bool
  | [] => false
  | .handed i :: log => if i = id then true else outstanding id log
  | .failed i :: log => if i = id then false else outstanding id log
  | .arrived _ :: log => outstanding id log

theorem outstanding_handed_ne {id i : Nat} (log : List Trace) (h : i ≠ id) :
    outstanding id (.handed i :: log) = outstanding id log := if_neg h

theorem outstanding_failed_ne {id i : Nat} (log : List Trace) (h : i ≠ id) :
    outstanding id (.failed i :: log) = outstanding id log := if_neg h

/-- What was never handed out is not outstanding. -/
theorem outstanding_of_not_handed {id : Nat} {log : List Trace} (h : .handed id ∉ log) :
    outstanding id log = false := by
  induction log with
  | nil => rfl
  | cons e log ih =>
      have hlog : Trace.handed id ∉ log := fun hmem => h (List.mem_cons_of_mem _ hmem)
      cases e with
      | arrived i => exact ih hlog
      | handed i =>
          rw [outstanding_handed_ne log (by rintro rfl; exact h List.mem_cons_self), ih hlog]
      | failed i =>
          rw [outstanding]
          split
          · rfl
          · exact ih hlog

/-- Between a hand-out and a moment when the id is not outstanding lies a failure. -/
theorem failed_mem_of_outstanding {id : Nat} {between earlier : List Trace}
    (h : outstanding id (between ++ .handed id :: earlier) = false) : .failed id ∈ between := by
  induction between with
  | nil => simp [outstanding] at h
  | cons e between ih =>
      cases e with
      | arrived i => exact List.mem_cons_of_mem _ (ih h)
      | handed i =>
          by_cases hi : i = id
          · simp [outstanding, hi] at h
          · rw [List.cons_append, outstanding_handed_ne _ hi] at h
            exact List.mem_cons_of_mem _ (ih h)
      | failed i =>
          by_cases hi : i = id
          · rw [hi]
            exact List.mem_cons_self
          · rw [List.cons_append, outstanding_failed_ne _ hi] at h
            exact List.mem_cons_of_mem _ (ih h)

/-- The ids that arrived fall towards the past. -/
def ArrivalsFall : List Trace → Prop
  | [] => True
  | .arrived id :: log => (∀ i, .arrived i ∈ log → i < id) ∧ ArrivalsFall log
  | .handed _ :: log | .failed _ :: log => ArrivalsFall log

/-- Of two requests the one with the greater id arrived later. -/
theorem sublist_of_arrivalsFall {id id' : Nat} {log : List Trace} (h : ArrivalsFall log)
    (hlt : id' < id) (hmem : .arrived id ∈ log) (hmem' : .arrived id' ∈ log) :
    [.arrived id, .arrived id'].Sublist log := by
  have pass : ∀ e (rest : List Trace), ArrivalsFall rest → (ArrivalsFall rest →
      .arrived id ∈ rest → .arrived id' ∈ rest → [.arrived id, .arrived id'].Sublist rest) →
      e ≠ .arrived id → e ≠ .arrived id' → .arrived id ∈ e :: rest → .arrived id' ∈ e :: rest →
      [.arrived id, .arrived id'].Sublist (e :: rest) := by
    intro e rest hrest ih he he' hmem hmem'
    refine (ih hrest ?_ ?_).cons e
    · exact (List.mem_cons.mp hmem).resolve_left he.symm
    · exact (List.mem_cons.mp hmem').resolve_left he'.symm
  induction log with
  | nil => simp at hmem
  | cons e log ih =>
      cases e with
      | handed i | failed i => exact pass _ log h ih (by simp) (by simp) hmem hmem'
      | arrived i =>
          obtain ⟨hall, hlog⟩ := h
          by_cases hi : i = id
          · subst hi
            have hmem' : Trace.arrived id' ∈ log :=
              (List.mem_cons.mp hmem').resolve_left fun heq => by
                cases heq
                exact Nat.lt_irrefl _ hlt
            exact (List.singleton_sublist.mpr hmem').cons_cons _
          · have hlater : Trace.arrived id ∈ log :=
              (List.mem_cons.mp hmem).resolve_left fun heq => by
                cases heq
                exact hi rfl
            refine pass _ log hlog ih (by simpa using hi) ?_ hmem hmem'
            rintro ⟨⟩
            exact Nat.lt_asymm hlt (hall id hlater)

theorem redeliversFailed_cons {e : Trace} {log : List Trace} (h : RedeliversFailed log)
    (he : ∀ id, e = .handed id → outstanding id log = false) : RedeliversFailed (e :: log) := by
  intro later between earlier id heq
  cases later with
  | nil =>
      obtain ⟨rfl, rfl⟩ := List.cons.inj heq
      exact failed_mem_of_outstanding (he id rfl)
  | cons e' later => exact h later between earlier id (List.cons.inj heq).2

theorem deliversInOrder_cons {e : Trace} {log : List Trace} (h : DeliversInOrder log)
    (he : ∀ id, e = .handed id → .handed id ∉ log →
      ∀ id', .handed id' ∈ log → [.arrived id, .arrived id'].Sublist log) :
    DeliversInOrder (e :: log) := by
  intro later earlier id heq hnew id' hid'
  cases later with
  | nil =>
      obtain ⟨rfl, rfl⟩ := List.cons.inj heq
      exact he id rfl hnew id' hid'
  | cons e' later => exact h later earlier id (List.cons.inj heq).2 hnew id' hid'

/-! ## the invariant -/

/-- The queue is sound, and the log says what has become of each request. -/
structure Sound (q : Traffic) : Prop where
  queue : q.kmod.Sound
  falls : ArrivalsFall q.log
  below : ∀ i, .arrived i ∈ q.log → i < q.kmod.nextId
  arrived : ∀ r ∈ q.kmod.reqs, .arrived r.id ∈ q.log
  handed : ∀ i, .handed i ∈ q.log → .arrived i ∈ q.log
  waiting : ∀ r ∈ q.kmod.reqs, r.delivered = false → outstanding r.id q.log = false
  given : ∀ r ∈ q.kmod.reqs, r.delivered = true → .handed r.id ∈ q.log
  ahead : ∀ r ∈ q.kmod.reqs, .handed r.id ∉ q.log → ∀ i, .handed i ∈ q.log → i < r.id
  copies : ∀ i ∈ q.copying, outstanding i q.log = true
  once : q.copying.Nodup
  redelivers : RedeliversFailed q.log
  inOrder : DeliversInOrder q.log

variable {q q' : Traffic}

theorem Initial.sound (h : q.Initial) : q.Sound := by
  obtain ⟨m, now, rfl⟩ := h
  refine ⟨KMod.sound_fresh rfl rfl, trivial, ?_, ?_, ?_, ?_, ?_, ?_, ?_, .nil, ?_, ?_⟩
  · exact fun i hi => absurd hi List.not_mem_nil
  · exact fun r hr => absurd hr List.not_mem_nil
  · exact fun i hi => absurd hi List.not_mem_nil
  · exact fun r hr => absurd hr List.not_mem_nil
  · exact fun r hr => absurd hr List.not_mem_nil
  · exact fun r hr => absurd hr List.not_mem_nil
  · exact fun i hi => absurd hi List.not_mem_nil
  · intro later between earlier id heq
    simp at heq
  · intro later earlier id heq
    simp at heq

/-- Requests that go leave no trace in the log. -/
theorem Sound.drop (h : q.Sound) {k : KMod} (hk : k.Sound) (hsub : k.reqs ⊆ q.kmod.reqs)
    (hnext : k.nextId = q.kmod.nextId) : Sound { q with kmod := k } where
  queue := hk
  falls := h.falls
  below i hi := hnext ▸ h.below i hi
  arrived r hr := h.arrived r (hsub hr)
  handed := h.handed
  waiting r hr := h.waiting r (hsub hr)
  given r hr := h.given r (hsub hr)
  ahead r hr := h.ahead r (hsub hr)
  copies := h.copies
  once := h.once
  redelivers := h.redelivers
  inOrder := h.inOrder

/-- A copy that comes to an end. -/
theorem Sound.endCopy (h : q.Sound) (i : Nat) :
    Sound { q with copying := q.copying.eraseIdx i } :=
  { h with
    copies := fun j hj => h.copies j (List.mem_of_mem_eraseIdx hj)
    once := h.once.sublist (List.eraseIdx_sublist _ _) }

/-- A request that arrives is behind everything handed out so far. -/
theorem Sound.arrive (h : q.Sound) {k : KMod} {r : Req} (hk : k.Sound)
    (hreqs : ∀ s ∈ k.reqs, s ∈ q.kmod.reqs ∨ s = r) (hid : r.id = q.kmod.nextId)
    (hdel : r.delivered = false) (hnext : k.nextId = q.kmod.nextId + 1) :
    Sound { q with kmod := k, log := .arrived r.id :: q.log } := by
  have hnew : Trace.handed r.id ∉ q.log := fun hmem =>
    Nat.lt_irrefl r.id (by rw [hid]; exact hid ▸ h.below _ (h.handed _ hmem))
  refine ⟨hk, ⟨fun i hi => hid ▸ h.below i hi, h.falls⟩, ?_, ?_, ?_, ?_, ?_, ?_, h.copies, h.once,
    redeliversFailed_cons h.redelivers (by simp), deliversInOrder_cons h.inOrder (by simp)⟩
  · intro i hi
    rw [hnext]
    obtain heq | hi := List.mem_cons.mp hi
    · cases heq
      rw [hid]
      exact Nat.lt_succ_self _
    · exact Nat.lt_succ_of_lt (h.below i hi)
  · intro s hs
    obtain hs | rfl := hreqs s hs
    · exact List.mem_cons_of_mem _ (h.arrived s hs)
    · exact List.mem_cons_self
  · intro i hi
    exact List.mem_cons_of_mem _ (h.handed i (by simpa using hi))
  · intro s hs hwait
    obtain hs | rfl := hreqs s hs
    · exact h.waiting s hs hwait
    · exact outstanding_of_not_handed (by simpa using hnew)
  · intro s hs hgiven
    obtain hs | rfl := hreqs s hs
    · exact List.mem_cons_of_mem _ (h.given s hs hgiven)
    · rw [hdel] at hgiven
      cases hgiven
  · intro s hs hno i hi
    obtain hs | rfl := hreqs s hs
    · exact h.ahead s hs (by simpa using hno) i (by simpa using hi)
    · rw [hid]
      exact h.below i (h.handed i (by simpa using hi))

/-- The hook keeps the queue and the log together. -/
theorem Sound.hook (h : q.Sound) {res : HookResult × KMod}
    (hstep : KMod.UpcallStep q.kmod q.now res) :
    Sound { q with
      kmod := res.2
      log := if res.2.nextId = q.kmod.nextId then q.log else .arrived q.kmod.nextId :: q.log } := by
  have hsound := h.queue.upcallStep hstep
  cases hstep with
  | refused r =>
      rw [if_pos rfl]
      exact h
  | swept r =>
      change Sound { q with
        kmod := q.kmod.reqGc q.now
        log := if q.kmod.nextId = q.kmod.nextId then q.log else .arrived q.kmod.nextId :: q.log }
      rw [if_pos rfl]
      exact h.drop hsound (q.kmod.reqGc_sublist q.now).subset rfl
  | @queued key info nonblock hkey hfull hpath hinfo =>
      rw [if_neg (Nat.succ_ne_self _)]
      refine h.arrive (r := (q.kmod.reqGc q.now).newReq key info nonblock q.now) hsound ?_ rfl rfl rfl
      intro s hs
      obtain hs | hs := List.mem_append.mp hs
      · exact .inl ((q.kmod.reqGc_sublist q.now).subset hs)
      · exact .inr (List.mem_singleton.mp hs)

/-- The first request that is not delivered is ahead of all such requests. -/
theorem first_of_find {k : KMod} (h : k.Sound) {r s : Req}
    (hr : (k.reqs.find? fun r => !r.delivered) = some r) (hs : s ∈ k.reqs)
    (hdel : s.delivered = false) (hne : s.id ≠ r.id) : r.id < s.id := by
  obtain ⟨-, as, bs, hsplit, has⟩ := List.find?_eq_some_iff_append.mp hr
  have hids := h.ids
  rw [hsplit, List.map_append, List.map_cons, List.pairwise_append, List.pairwise_cons] at hids
  rw [hsplit, List.mem_append, List.mem_cons] at hs
  obtain hs | rfl | hs := hs
  · exact absurd (has s hs) (by simp [hdel])
  · exact absurd rfl hne
  · exact hids.2.1.1 s.id (List.mem_map_of_mem hs)

/-- Handing out the first request that is not delivered. -/
theorem Sound.hand (h : q.Sound) {r : Req} {k : KMod} (hread : q.kmod.read = (.event r, k)) :
    Sound { q with kmod := k, copying := q.copying ++ [r.id], log := .handed r.id :: q.log } := by
  have hsound : k.Sound := by
    have hkeep := h.queue.read
    rwa [hread] at hkeep
  obtain ⟨-, hr, rfl⟩ := KMod.read_event hread
  have hmem := List.mem_of_find?_eq_some hr
  have hdel : r.delivered = false := by simpa using List.find?_some hr
  have hout := h.waiting r hmem hdel
  -- a marked request is an old one, and it is this one or as it was
  have hold : ∀ s ∈ q.kmod.reqs.map (fun s => if s.id = r.id then { s with delivered := true } else s),
      (s.id = r.id ∧ s.delivered = true) ∨ (s ∈ q.kmod.reqs ∧ s.id ≠ r.id) := by
    intro s hs
    obtain ⟨t, ht, rfl⟩ := List.mem_map.mp hs
    split
    · exact .inl ⟨‹_›, rfl⟩
    · exact .inr ⟨ht, ‹_›⟩
  refine ⟨hsound, h.falls, ?_, ?_, ?_, ?_, ?_, ?_, ?_, ?_, ?_, ?_⟩
  · exact fun i hi => h.below i (by simpa using hi)
  · intro s hs
    obtain ⟨hid, -⟩ | ⟨hs, -⟩ := hold s hs
    · rw [hid]
      exact List.mem_cons_of_mem _ (h.arrived r hmem)
    · exact List.mem_cons_of_mem _ (h.arrived s hs)
  · intro i hi
    obtain heq | hi := List.mem_cons.mp hi
    · cases heq
      exact List.mem_cons_of_mem _ (h.arrived r hmem)
    · exact List.mem_cons_of_mem _ (h.handed i hi)
  · intro s hs hwait
    obtain ⟨-, hgiven⟩ | ⟨hs, hne⟩ := hold s hs
    · rw [hgiven] at hwait
      cases hwait
    · rw [outstanding_handed_ne _ (Ne.symm hne)]
      exact h.waiting s hs hwait
  · intro s hs hgiven
    obtain ⟨hid, -⟩ | ⟨hs, -⟩ := hold s hs
    · rw [hid]
      exact List.mem_cons_self
    · exact List.mem_cons_of_mem _ (h.given s hs hgiven)
  · intro s hs hno i hi
    obtain ⟨hid, -⟩ | ⟨hs, hne⟩ := hold s hs
    · exact absurd (by rw [hid]; exact List.mem_cons_self) hno
    · have hno : Trace.handed s.id ∉ q.log := fun hmem => hno (List.mem_cons_of_mem _ hmem)
      obtain heq | hi := List.mem_cons.mp hi
      · cases heq
        refine first_of_find h.queue hr hs ?_ hne
        rw [← Bool.not_eq_true]
        exact fun hgiven => hno (h.given s hs hgiven)
      · exact h.ahead s hs hno i hi
  · intro i hi
    obtain hi | hi := List.mem_append.mp hi
    · have hne : r.id ≠ i := by
        rintro rfl
        rw [h.copies _ hi] at hout
        cases hout
      rw [outstanding_handed_ne _ hne]
      exact h.copies i hi
    · rw [List.mem_singleton.mp hi]
      simp [outstanding]
  · rw [List.nodup_append]
    refine ⟨h.once, List.nodup_singleton _, ?_⟩
    rintro i hi _ hnew rfl
    rw [List.mem_singleton.mp hnew] at hi
    rw [h.copies _ hi] at hout
    cases hout
  · refine redeliversFailed_cons h.redelivers fun id heq => ?_
    cases heq
    exact hout
  · refine deliversInOrder_cons h.inOrder fun id heq hnew id' hid' => ?_
    cases heq
    exact sublist_of_arrivalsFall h.falls (h.ahead r hmem hnew id' hid') (h.arrived r hmem)
      (h.handed id' hid')

/-- What is in the queue after a failed copy: requests as they were, and the one
that is to be delivered again. -/
theorem mem_redeliverIn {id : Nat} {reqs : List Req} {s : Req}
    (h : s ∈ KMod.redeliverIn id reqs) :
    s ∈ reqs ∨ ∃ r ∈ reqs, r.id = id ∧ s = { r with delivered := false } := by
  induction reqs with
  | nil => exact .inl h
  | cons r rest ih =>
      rw [KMod.redeliverIn] at h
      split at h <;> obtain rfl | h := List.mem_cons.mp h
      · exact .inr ⟨r, List.mem_cons_self, ‹_›, rfl⟩
      · exact .inl (List.mem_cons_of_mem _ h)
      · exact .inl List.mem_cons_self
      · obtain h | ⟨t, ht, hid, rfl⟩ := ih h
        · exact .inl (List.mem_cons_of_mem _ h)
        · exact .inr ⟨t, List.mem_cons_of_mem _ ht, hid, rfl⟩

/-- A request that is still queued becomes one to deliver again. -/
theorem redeliverIn_mem {id : Nat} {reqs : List Req} {r : Req} (hnd : (reqs.map (·.id)).Nodup)
    (hr : r ∈ reqs) (hid : r.id = id) :
    { r with delivered := false } ∈ KMod.redeliverIn id reqs := by
  induction reqs with
  | nil => simp at hr
  | cons s rest ih =>
      rw [List.map_cons, List.nodup_cons] at hnd
      rw [KMod.redeliverIn]
      obtain rfl | hr := List.mem_cons.mp hr
      · rw [if_pos hid]
        exact List.mem_cons_self
      · have hne : s.id ≠ id := by
          rintro rfl
          exact hnd.1 (hid ▸ List.mem_map_of_mem hr)
        rw [if_neg hne]
        exact List.mem_cons_of_mem _ (ih hnd.2 hr)

/-- A copy that fails. -/
theorem Sound.fail (h : q.Sound) {i id : Nat} (hi : q.copying[i]? = some id) :
    Sound { q with
      kmod := q.kmod.redeliver id
      copying := q.copying.eraseIdx i
      log := .failed id :: q.log } := by
  have hid : outstanding id q.log = true := h.copies id (List.mem_of_getElem? hi)
  have hold : ∀ s ∈ (q.kmod.redeliver id).reqs, ∃ r ∈ q.kmod.reqs, s.id = r.id ∧
      (s = r ∨ s.delivered = false ∧ s.id = id) := by
    intro s hs
    obtain hs | ⟨r, hr, hrid, rfl⟩ := mem_redeliverIn hs
    · exact ⟨s, hs, rfl, .inl rfl⟩
    · exact ⟨r, hr, rfl, .inr ⟨rfl, hrid⟩⟩
  refine ⟨h.queue.redeliver id, h.falls, ?_, ?_, ?_, ?_, ?_, ?_, ?_, ?_,
    redeliversFailed_cons h.redelivers (by simp), deliversInOrder_cons h.inOrder (by simp)⟩
  · exact fun i hi => h.below i (by simpa using hi)
  · intro s hs
    obtain ⟨r, hr, hsid, -⟩ := hold s hs
    rw [hsid]
    exact List.mem_cons_of_mem _ (h.arrived r hr)
  · exact fun i hi => List.mem_cons_of_mem _ (h.handed i (by simpa using hi))
  · intro s hs hwait
    by_cases hsid : id = s.id
    · simp [outstanding, hsid]
    · rw [outstanding_failed_ne _ hsid]
      obtain ⟨r, hr, -, rfl | ⟨-, hsid'⟩⟩ := hold s hs
      · exact h.waiting s hr hwait
      · exact absurd hsid'.symm hsid
  · intro s hs hgiven
    obtain ⟨r, hr, -, rfl | ⟨hdel, -⟩⟩ := hold s hs
    · exact List.mem_cons_of_mem _ (h.given s hr hgiven)
    · rw [hdel] at hgiven
      cases hgiven
  · intro s hs hno j hj
    obtain ⟨r, hr, hsid, -⟩ := hold s hs
    rw [hsid] at hno ⊢
    exact h.ahead r hr (by simpa using hno) j (by simpa using hj)
  · intro j hj
    have hne : id ≠ j := by
      rintro rfl
      obtain ⟨hlt, rfl⟩ := List.getElem?_eq_some_iff.mp hi
      rw [← List.Nodup.erase_getElem h.once i hlt] at hj
      exact List.Nodup.not_mem_erase h.once hj
    rw [outstanding_failed_ne _ hne]
    exact h.copies j (List.mem_of_mem_eraseIdx hj)
  · exact h.once.sublist (List.eraseIdx_sublist _ _)

/-- Every step keeps the queue and the log together. -/
theorem Sound.step (h : q.Sound) {ev : TrafficEvent} {o : List HookResult}
    (hstep : q.step ev = some (q', o)) : q'.Sound := by
  cases ev with
  | hook so sa memory =>
      obtain ⟨rfl, -⟩ := Prod.mk.inj (Option.some.inj hstep)
      exact h.hook (q.kmod.checkConnect_step so sa memory q.now)
  | read =>
      simp only [Traffic.step] at hstep
      split at hstep
      · obtain ⟨rfl, -⟩ := Prod.mk.inj (Option.some.inj hstep)
        exact h.hand ‹_›
      · cases hstep
  | copied i fault =>
      simp only [Traffic.step] at hstep
      split at hstep
      · split at hstep <;> obtain ⟨rfl, -⟩ := Prod.mk.inj (Option.some.inj hstep)
        · exact h.fail ‹_›
        · exact h.endCopy i
      · cases hstep
  | resolve id v memory =>
      obtain ⟨rfl, -⟩ := Prod.mk.inj (Option.some.inj hstep)
      obtain ⟨-, heq⟩ | ⟨r, -, -, heq⟩ := q.kmod.resolve_step id v memory
      · rw [heq]
        exact h
      · refine h.drop (h.queue.resolve id v memory) ?_ ?_ <;> rw [heq]
        exact List.eraseP_subset
  | gc =>
      obtain ⟨rfl, -⟩ := Prod.mk.inj (Option.some.inj hstep)
      exact h.drop (h.queue.reqGc q.now) (q.kmod.reqGc_sublist q.now).subset rfl
  | upcallSet on =>
      obtain ⟨rfl, -⟩ := Prod.mk.inj (Option.some.inj hstep)
      exact h.drop (h.queue.congr rfl rfl rfl rfl) (List.Subset.refl _) rfl
  | close =>
      obtain ⟨rfl, -⟩ := Prod.mk.inj (Option.some.inj hstep)
      exact h.drop (h.queue.congr rfl rfl rfl rfl) (List.Subset.refl _) rfl
  | wait secs =>
      obtain ⟨rfl, -⟩ := Prod.mk.inj (Option.some.inj hstep)
      exact { h with }

theorem Reachable.sound (h : q.Reachable) : q.Sound := by
  obtain ⟨q₀, hinit, hrun⟩ := h
  exact hrun.invariant hinit.sound fun _ _ _ _ hinv _ hstep => hinv.step hstep

/-- **The upcall queue is sound.**  In every state reached by misses, reads,
copies that succeed or fail, resolves, sweeps, switches and closes in any order:
the counter is the length of the queue and at most its bound; the ids differ and
are below the next one; no key is queued twice; an event is handed out again
only after a copy of it has failed, and a failed copy makes a request that is
still queued deliverable; requests are first handed out in the order in which
they arrived; and resolving an unknown id changes nothing. -/
theorem queue_sound (h : q.Reachable) :
    q.kmod.nreq = q.kmod.reqs.length ∧ q.kmod.nreq ≤ PFSN_REQ_MAX ∧
      (q.kmod.reqs.map (·.id)).Nodup ∧ (∀ r ∈ q.kmod.reqs, r.id < q.kmod.nextId) ∧
      (q.kmod.reqs.map (·.key)).Nodup ∧ RedeliversFailed q.log ∧ DeliversInOrder q.log ∧
      (∀ i id q' o, q.copying[i]? = some id → q.step (.copied i true) = some (q', o) →
        ∀ r ∈ q.kmod.reqs, r.id = id → { r with delivered := false } ∈ q'.kmod.reqs) ∧
      ∀ id v memory, (∀ r ∈ q.kmod.reqs, r.id ≠ id) → q.kmod.resolve id v memory = q.kmod := by
  have hsound := h.sound
  refine ⟨hsound.queue.count, hsound.queue.bound, hsound.queue.nodup_ids,
    fun r hr => hsound.queue.fresh _ (List.mem_map_of_mem hr), hsound.queue.keys,
    hsound.redelivers, hsound.inOrder, ?_, ?_⟩
  · intro i id q' o hi hstep r hr hid
    simp only [Traffic.step, hi, if_true, Option.some.injEq, Prod.mk.injEq] at hstep
    obtain ⟨rfl, -⟩ := hstep
    exact redeliverIn_mem hsound.queue.nodup_ids hr hid
  · intro id v memory hno
    obtain ⟨-, heq⟩ | ⟨r, hr, hid, -⟩ := q.kmod.resolve_step id v memory
    · exact heq
    · exact absurd hid (hno r hr)

/-- `/a` sends a datagram to some port of 192.0.2.1. -/
def missEvent (port : UInt16) : TrafficEvent :=
  .hook ⟨.dgram, some ⟨7, 0, [0x2f, 0x61]⟩, false⟩ (.inet (.v4 ⟨192, 0, 2, 1⟩) port) true

/-- Two requests arrive and are handed out; the copy of the first fails, and it
is handed out again. -/
theorem queue_sound_redelivery :
    ∃ q : Traffic, q.Reachable ∧ q.log =
        [.handed 1, .failed 1, .handed 2, .handed 1, .arrived 2, .arrived 1] ∧
      q.kmod.nreq = 2 ∧ RedeliversFailed q.log ∧ DeliversInOrder q.log := by
  have hexec : (exec step (fun _ _ => True) ⟨{}, [], 0, []⟩ [.upcallSet true, missEvent 443,
      missEvent 8443, .read, .read, .copied 0 true, .read]).any (fun q => q.kmod.nreq = 2 ∧
        q.log = [.handed 1, .failed 1, .handed 2, .handed 1, .arrived 2, .arrived 1]) = true := by
    decide +kernel
  obtain ⟨q, hrun, hp⟩ := exists_run_of_exec hexec
  rw [decide_eq_true_eq] at hp
  have hreach : q.Reachable := ⟨_, ⟨.fopen, 0, rfl⟩, hrun.mono fun _ _ _ => trivial⟩
  obtain ⟨-, -, -, -, -, hre, hord, -⟩ := queue_sound hreach
  exact ⟨q, hreach, hp.2, hp.1, hre, hord⟩

end Traffic

end Pfsnitch
