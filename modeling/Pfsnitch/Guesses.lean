import Pfsnitch.Procinfo.Tables

/-!
# Pfsnitch.Guesses

Attribution names an owner only when it is sure.

The weak tiers refuse a key that two processes claim, in whatever order they are scanned.
The exact tier does not: it names the process scanned last.  So a snapshot never guesses
exactly when no two processes hold a connected socket with one tuple
(`never_guesses_iff`), which a fork is enough to break (`never_guesses_fails`).
-/

namespace Pfsnitch.Procinfo

open Lib

variable {m m' : Machine} {p q : Process} {t : Tuple} {outbound : Bool} {a : Attribution}
  {o o' : Owner} {s : SockStat}

/-- The process holds a socket that stands for the flow at a tier: a connected one with its
tuple, an unconnected one bound to its local address and port, or one bound to its port. -/
def Process.Claims (p : Process) (t : Tuple) : Confidence → Prop
  | .kernel => False
  | .exact => ∃ s ∈ p.sockets, s.exactKey = some t
  | .localAddr => ∃ s ∈ p.sockets, s.protoU8 = t.proto ∧ s.bound = some (t.src, t.sport)
  | .port => ∃ s ∈ p.sockets, s.protoU8 = t.proto ∧ ∃ addr, s.bound = some (addr, t.sport)

/-! ## who claims what -/

theorem mem_sockets : (o, s) ∈ m.sockets ↔ ∃ p ∈ m.processes, p.owner = o ∧ s ∈ p.sockets := by
  simp only [Machine.sockets, List.mem_flatMap, List.mem_map, Prod.mk.injEq]
  constructor
  · rintro ⟨p, hp, s', hs, rfl, rfl⟩
    exact ⟨p, hp, rfl, hs⟩
  · rintro ⟨p, hp, rfl, hs⟩
    exact ⟨p, hp, s, hs, rfl, rfl⟩

/-- Processes with one pid are one process. -/
theorem Machine.eq_of_pid (m : Machine) (hp : p ∈ m.processes) (hq : q ∈ m.processes)
    (h : p.pid = q.pid) : p = q :=
  List.inj_on_of_nodup_map m.nodup hp hq h

/-- Claims by one pid are claims by one owner. -/
theorem Machine.owner_eq (m : Machine) {κ : Type} {key : SockStat → Option κ} :
    ∀ x ∈ claims key m.sockets, ∀ y ∈ claims key m.sockets, x.2.pid = y.2.pid → x.2 = y.2 := by
  intro x hx y hy h
  obtain ⟨s, hs, -⟩ := mem_claims.mp hx
  obtain ⟨s', hs', -⟩ := mem_claims.mp hy
  obtain ⟨p, hp, hpo, -⟩ := mem_sockets.mp hs
  obtain ⟨q, hq, hqo, -⟩ := mem_sockets.mp hs'
  rw [← hpo, ← hqo] at h ⊢
  rw [m.eq_of_pid hp hq h]

theorem localKey_eq_some_iff {k : UInt8 × IpAddr × UInt16} : s.localKey = some k ↔
    s.protoU8 = k.1 ∧ s.bound = some k.2 ∧ isUnspecified k.2.1 = false := by
  obtain ⟨proto, addr, port⟩ := k
  cases hb : s.bound with
  | none => simp [SockStat.localKey, hb]
  | some e =>
      obtain ⟨addr', port'⟩ := e
      cases hun : isUnspecified addr' <;> simp [SockStat.localKey, hb, hun] <;> grind

theorem portKey_eq_some_iff {k : UInt8 × UInt16} : s.portKey = some k ↔
    s.protoU8 = k.1 ∧ ∃ addr, s.bound = some (addr, k.2) := by
  obtain ⟨proto, port⟩ := k
  cases hb : s.bound with
  | none => simp [SockStat.portKey, hb]
  | some e => simp [SockStat.portKey, hb, Prod.ext_iff, eq_comm]

/-- Whoever is named holds a socket that stands for the flow. -/
theorem claims_of_get (h : (snapshot m).get t outbound = some a) :
    ∃ p ∈ m.processes, p.owner = a.owner ∧ p.Claims t a.confidence := by
  have hm := snapshot_holds m
  obtain ⟨hc, ho⟩ | ⟨hc, ho⟩ | ⟨hc, ho⟩ := Tables.get_cases h
  · obtain ⟨s, hs, hk⟩ := mem_claims.mp (hm.exact.mem _ _ ho)
    obtain ⟨p, hp, hpo, hsp⟩ := mem_sockets.mp hs
    exact ⟨p, hp, hpo, hc ▸ ⟨s, hsp, hk⟩⟩
  · obtain ⟨s, hs, hk⟩ := mem_claims.mp (hm.locals.sole ho).1
    obtain ⟨p, hp, hpo, hsp⟩ := mem_sockets.mp hs
    obtain ⟨hproto, hb, -⟩ := localKey_eq_some_iff.mp hk
    exact ⟨p, hp, hpo, hc ▸ ⟨s, hsp, hproto, hb⟩⟩
  · obtain ⟨s, hs, hk⟩ := mem_claims.mp (hm.ports.sole ho).1
    obtain ⟨p, hp, hpo, hsp⟩ := mem_sockets.mp hs
    exact ⟨p, hp, hpo, hc ▸ ⟨s, hsp, portKey_eq_some_iff.mp hk⟩⟩

/-! ## the order of the scan -/

/-- A process whose files come in another order. -/
structure Process.Reordered (p' p : Process) : Prop where
  pid : p'.pid = p.pid
  comm : p'.comm = p.comm
  pathname : p'.pathname = p.pathname
  files : Option.Rel List.Perm p'.files p.files

/-- A machine whose processes and their files come in another order. -/
def Machine.Reordered (m' m : Machine) : Prop :=
  ∃ procs, List.Forall₂ Process.Reordered m'.processes procs ∧ procs.Perm m.processes

theorem Process.Reordered.owner (h : p.Reordered q) : p.owner = q.owner := by
  rw [Process.owner, Process.owner, Process.path, Process.path, h.pid, h.comm, h.pathname]

theorem Process.Reordered.sockets (h : p.Reordered q) : p.sockets.Perm q.sockets := by
  have hfiles := h.files
  rw [Process.sockets, Process.sockets]
  generalize p.files = x, q.files = y at hfiles ⊢
  cases hfiles with
  | some hperm => exact hperm.filterMap _
  | none => exact .refl _

/-- The same sockets are met. -/
theorem Machine.Reordered.sockets (h : m'.Reordered m) : m'.sockets.Perm m.sockets := by
  obtain ⟨procs, hall, hperm⟩ := h
  rw [Machine.sockets, Machine.sockets]
  refine List.Perm.trans ?_ (hperm.flatMap_right _)
  clear hperm
  generalize m'.processes = procs' at hall
  induction hall with
  | nil => exact .refl _
  | @cons p q ps qs hpq _ ih =>
      rw [List.flatMap_cons, List.flatMap_cons, hpq.owner]
      exact (hpq.sockets.map _).append ih

theorem Machine.Reordered.mem_claims (h : m'.Reordered m) {κ : Type} {key : SockStat → Option κ}
    {k : κ} : (k, o) ∈ claims key m'.sockets ↔ (k, o) ∈ claims key m.sockets :=
  (h.sockets.filterMap _).mem_iff

/-! ## when nobody shares a connected socket -/

/-- No two processes hold a connected socket with one tuple. -/
def Machine.Unshared (m : Machine) : Prop :=
  ∀ t, ∀ p ∈ m.processes, ∀ q ∈ m.processes, p.Claims t .exact → q.Claims t .exact → p.pid = q.pid

theorem Machine.Unshared.sole (h : m.Unshared) (ho : (t, o) ∈ claims SockStat.exactKey m.sockets)
    (ho' : (t, o') ∈ claims SockStat.exactKey m.sockets) : o = o' := by
  obtain ⟨s, hs, hk⟩ := Procinfo.mem_claims.mp ho
  obtain ⟨s', hs', hk'⟩ := Procinfo.mem_claims.mp ho'
  obtain ⟨p, hp, rfl, hsp⟩ := mem_sockets.mp hs
  obtain ⟨q, hq, rfl, hsq⟩ := mem_sockets.mp hs'
  rw [m.eq_of_pid hp hq (h t p hp q hq ⟨s, hsp, hk⟩ ⟨s', hsq, hk'⟩)]

/-- Then an answer does not depend on the order of the scan. -/
theorem Machine.Unshared.get_reordered (h : m.Unshared) (hm' : m'.Reordered m) :
    (snapshot m').get t outbound = (snapshot m).get t outbound := by
  have hm := snapshot_holds m
  have hn := snapshot_holds m'
  have hexact : (snapshot m').exact.lookup t = (snapshot m).exact.lookup t := by
    refine Option.ext fun o => ?_
    have hsole : ∀ k b b', (k, b) ∈ claims SockStat.exactKey m.sockets →
        (k, b') ∈ claims SockStat.exactKey m.sockets → b = b' := fun _ _ _ hb hb' => h.sole hb hb'
    rw [hm.exact.lookup_eq_some_iff hsole, hn.exact.lookup_eq_some_iff, hm'.mem_claims]
    intro k b b' hb hb'
    exact hsole k b b' (hm'.mem_claims.mp hb) (hm'.mem_claims.mp hb')
  have hlocal : ∀ k, (snapshot m').locals.find k = (snapshot m).locals.find k := by
    intro k
    refine Option.ext fun o => ?_
    rw [hm.locals.find_eq_some_iff m.owner_eq, hn.locals.find_eq_some_iff m'.owner_eq]
    simp only [hm'.mem_claims]
  have hport : ∀ k, (snapshot m').ports.find k = (snapshot m).ports.find k := by
    intro k
    refine Option.ext fun o => ?_
    rw [hm.ports.find_eq_some_iff m.owner_eq, hn.ports.find_eq_some_iff m'.owner_eq]
    simp only [hm'.mem_claims]
  rw [Tables.get, Tables.get, hexact, hlocal, hport]

/-- The weak tiers name the sole claimant of their key. -/
theorem pid_of_get_weak (h : (snapshot m).get t outbound = some a) (hweak : a.confidence ≠ .exact)
    (hp : p ∈ m.processes) (hc : p.Claims t a.confidence) : p.pid = a.owner.pid := by
  have hm := snapshot_holds m
  obtain ⟨hconf, -⟩ | ⟨hconf, ho⟩ | ⟨hconf, ho⟩ := Tables.get_cases h
  · exact absurd hconf hweak
  · obtain ⟨hmem, hsole⟩ := hm.locals.sole ho
    obtain ⟨s', -, hk⟩ := mem_claims.mp hmem
    obtain ⟨-, -, haddr⟩ := localKey_eq_some_iff.mp hk
    rw [hconf] at hc
    obtain ⟨s, hs, hproto, hb⟩ := hc
    exact hsole p.owner (mem_claims.mpr
      ⟨s, mem_sockets.mpr ⟨p, hp, rfl, hs⟩, localKey_eq_some_iff.mpr ⟨hproto, hb, haddr⟩⟩)
  · rw [hconf] at hc
    obtain ⟨s, hs, hbound⟩ := hc
    exact (hm.ports.sole ho).2 p.owner (mem_claims.mpr
      ⟨s, mem_sockets.mpr ⟨p, hp, rfl, hs⟩, portKey_eq_some_iff.mpr hbound⟩)

/-- A connected socket is found, whoever holds it. -/
theorem get_of_exact (hp : p ∈ m.processes) (hc : p.Claims t .exact) :
    ∃ o, (snapshot m).get t outbound = some ⟨o, .exact⟩ := by
  obtain ⟨s, hs, hk⟩ := hc
  have hmem := mem_claims.mpr ⟨s, mem_sockets.mpr ⟨p, hp, rfl, hs⟩, hk⟩
  obtain ⟨o, ho⟩ := Option.isSome_iff_exists.mp ((snapshot_holds m).exact.claimed t _ hmem)
  exact ⟨o, by rw [Tables.get, ho]⟩

/-! ## never guessing -/

/-- What a snapshot names does not depend on the order of the scan, and whoever it names is
the only one to claim the flow at the tier of the answer. -/
structure NeverGuesses (m : Machine) : Prop where
  order : ∀ m', m'.Reordered m → ∀ t outbound,
    (snapshot m').get t outbound = (snapshot m).get t outbound
  sole : ∀ t outbound a, (snapshot m).get t outbound = some a →
    ∀ p ∈ m.processes, p.Claims t a.confidence → p.pid = a.owner.pid
  contested : ∀ t tier, ∀ p ∈ m.processes, ∀ q ∈ m.processes, p.pid ≠ q.pid →
    p.Claims t tier → q.Claims t tier →
      ∀ outbound a, (snapshot m).get t outbound = some a → a.confidence ≠ tier

/-- **Attribution never guesses** exactly when no connected socket is shared. -/
theorem never_guesses_iff (m : Machine) : NeverGuesses m ↔ m.Unshared := by
  constructor
  · intro h t p hp q hq hpc hqc
    obtain ⟨o, ho⟩ : ∃ o, (snapshot m).get t true = some ⟨o, .exact⟩ := get_of_exact hp hpc
    have hpid := h.sole t true _ ho p hp hpc
    have hqid := h.sole t true _ ho q hq hqc
    rw [hpid, hqid]
  · intro h
    have hsole : ∀ t outbound a, (snapshot m).get t outbound = some a →
        ∀ p ∈ m.processes, p.Claims t a.confidence → p.pid = a.owner.pid := by
      intro t outbound a ha p hp hc
      by_cases hexact : a.confidence = .exact
      · obtain ⟨q, hq, hqo, hqc⟩ := claims_of_get ha
        rw [hexact] at hc hqc
        rw [h t p hp q hq hc hqc, ← hqo]
        rfl
      · exact pid_of_get_weak ha hexact hp hc
    refine ⟨fun m' hm' t outbound => h.get_reordered hm', hsole, ?_⟩
    rintro t tier p hp q hq hne hpc hqc outbound a ha rfl
    exact hne ((hsole t outbound a ha p hp hpc).trans (hsole t outbound a ha q hq hqc).symm)

/-- A process that holds a connection over TCP, such as a child of a fork. -/
def holder (pid : Int) : Process where
  pid := pid
  comm := []
  pathname := none
  files := some [⟨fstTypeSocket, some ⟨6, .inet 54614 ⟨10, 0, 0, 2⟩, .inet 443 ⟨1, 1, 1, 1⟩⟩⟩]

/-- A parent and its child hold one connection, and one of them is named. -/
theorem never_guesses_fails : ¬ ∀ m, NeverGuesses m := by
  intro h
  let m : Machine := ⟨some [holder 100, holder 101], by decide⟩
  let t : Tuple := ⟨6, .v4 ⟨10, 0, 0, 2⟩, 54614, .v4 ⟨1, 1, 1, 1⟩, 443⟩
  have hget : (snapshot m).get t true = some ⟨(holder 101).owner, .exact⟩ := by decide
  have hclaims : (holder 100).Claims t .exact := ⟨_, List.mem_singleton_self _, rfl⟩
  have hpid := (h m).sole t true _ hget (holder 100) List.mem_cons_self hclaims
  exact absurd hpid (by decide)

end Pfsnitch.Procinfo
