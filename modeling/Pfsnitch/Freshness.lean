import Pfsnitch.Guesses
import Pfsnitch.Procinfo.Resolver

/-!
# Pfsnitch.Freshness

How old an attribution can be.

A miss asks for a scan when the last one has expired, but a hit is never checked for its
age.  An answer is fresh unless the tables at hand give it after their time
(`fresh_iff`), and then it can name a process that has closed its socket long ago
(`fresh_fails`).
-/

namespace Pfsnitch.Procinfo

variable {world : Nat → Machine} {cs pre post : List Call} {c : Call}

/-- The machine runs a process of this owner with a socket that stands for the flow. -/
def Machine.Holds (m : Machine) (o : Owner) (t : Tuple) : Prop :=
  ∃ p ∈ m.processes, p.owner = o ∧ ∃ tier, p.Claims t tier

theorem holds_of_get {m : Machine} {t : Tuple} {outbound : Bool} {a : Attribution}
    (h : (snapshot m).get t outbound = some a) : m.Holds a.owner t := by
  obtain ⟨p, hp, ho, hc⟩ := claims_of_get h
  exact ⟨p, hp, ho, _, hc⟩

/-- If the call `c` after the calls `pre` names an owner, this owner held a socket for the
flow in a scan that had not expired; nobody is named who held none for so long. -/
def Fresh (world : Nat → Machine) (pre : List Call) (c : Call) : Prop :=
  ∀ a, (c.resolve world (Call.run world .new pre)).found = some a →
    (∃ d ∈ Call.scans world .new (pre ++ [c]), d.time ≤ c.time ∧
      c.time ≤ d.time + Resolver.new.ttl ∧ (world d.time).Holds a.owner c.tuple) ∧
    ∀ o, (∀ i, i ≤ c.time → c.time ≤ i + Resolver.new.ttl → ¬ (world i).Holds o c.tuple) →
      a.owner ≠ o

/-- The call `c` after the calls `pre` is answered by tables that have expired. -/
def Expired (world : Nat → Machine) (pre : List Call) (c : Call) : Prop :=
  ((Call.run world .new pre).tables.get c.tuple c.outbound).isSome ∧
    (Call.run world .new pre).stale c.time = true

/-! ## what the resolver knows -/

/-- The tables of `r` are those of the last of the scans `ds`. -/
structure Knows (world : Nat → Machine) (ds : List Call) (r : Resolver) : Prop where
  ttl : r.ttl = Resolver.new.ttl
  lastScan : r.lastScan = ds.getLast?.map Call.time
  tables : r.tables = (ds.getLast?.map fun d => snapshot (world d.time)).getD .default

/-- One call. -/
theorem Knows.resolve {ds : List Call} {r : Resolver} (h : Knows world ds r) (c : Call) :
    Knows world (ds ++ Call.scans world r [c]) (c.resolve world r).resolver := by
  have hscans : Call.scans world r [c] = if (c.resolve world r).scanned then [c] else [] := rfl
  rw [hscans]
  unfold Call.resolve
  obtain ⟨a, -, hr⟩ | ⟨-, -, -, hr⟩ | ⟨-, -, ⟨a, -, hr⟩ | ⟨-, hr⟩⟩ :=
    r.resolve_cases c.time (world c.time) c.tuple c.outbound
  · rw [hr]
    simpa using h
  · rw [hr]
    simpa using h
  · rw [hr]
    exact ⟨h.ttl, by simp [Resolver.rescan], by simp [Resolver.rescan]⟩
  · rw [hr]
    exact ⟨h.ttl, by simp [Resolver.rescan, Resolver.miss], by simp [Resolver.rescan, Resolver.miss]⟩

/-- Any number of calls. -/
theorem knows_run (world : Nat → Machine) (cs : List Call) :
    Knows world (Call.scans world .new cs) (Call.run world .new cs) := by
  induction cs using List.reverseRecOn with
  | nil => exact ⟨rfl, rfl, rfl⟩
  | append_singleton cs c ih =>
      rw [Call.scans_append, Call.run_append]
      exact ih.resolve c

/-! ## fresh answers -/

/-- What a scan shows that has not expired is fresh. -/
theorem fresh_of_scan {a : Attribution} {d : Call} (hd : d ∈ Call.scans world .new (pre ++ [c]))
    (hle : d.time ≤ c.time) (httl : c.time ≤ d.time + Resolver.new.ttl)
    (hget : (snapshot (world d.time)).get c.tuple c.outbound = some a) :
    (∃ d ∈ Call.scans world .new (pre ++ [c]), d.time ≤ c.time ∧
      c.time ≤ d.time + Resolver.new.ttl ∧ (world d.time).Holds a.owner c.tuple) ∧
    ∀ o, (∀ i, i ≤ c.time → c.time ≤ i + Resolver.new.ttl → ¬ (world i).Holds o c.tuple) →
      a.owner ≠ o := by
  refine ⟨⟨d, hd, hle, httl, holds_of_get hget⟩, ?_⟩
  rintro o ho rfl
  exact ho d.time hle httl (holds_of_get hget)

/-- No scan of the calls is later than the last one. -/
theorem scan_le_last {d d' : Call} (hsorted : pre.Pairwise fun c d => c.time ≤ d.time)
    (hlast : (Call.scans world .new pre).getLast? = some d)
    (hd' : d' ∈ Call.scans world .new pre) : d'.time ≤ d.time := by
  have hsub : (Call.scans world .new pre).Sublist pre := Call.scans_sublist
  have hscans := hsorted.sublist hsub
  obtain ⟨ds, hds⟩ := List.getLast?_eq_some_iff.mp hlast
  rw [hds] at hscans hd'
  obtain hd' | hd' := List.mem_append.mp hd'
  · exact (List.pairwise_append.mp hscans).2.2 d' hd' d (List.mem_singleton_self d)
  · rw [List.mem_singleton.mp hd']

/-- A hit shows the tables of the last scan. -/
theorem Knows.hit {ds : List Call} {r : Resolver} {a : Attribution} (h : Knows world ds r)
    (hget : r.tables.get c.tuple c.outbound = some a) :
    ∃ d, ds.getLast? = some d ∧ (snapshot (world d.time)).get c.tuple c.outbound = some a ∧
      (r.stale c.time = true ↔ Resolver.new.ttl < c.time - d.time) := by
  have htables := h.tables
  have hscanned := h.lastScan
  cases hlast : ds.getLast? with
  | none =>
      rw [hlast] at htables
      rw [htables, Option.map_none, Option.getD_none, Tables.get_default] at hget
      cases hget
  | some d =>
      rw [hlast] at htables hscanned
      refine ⟨d, rfl, ?_, ?_⟩
      · rwa [htables] at hget
      · rw [Resolver.stale, hscanned, Option.map_some, h.ttl, decide_eq_true_iff]

/-- One call: an answer is fresh unless it comes from tables that have expired. -/
theorem fresh_call_iff (hsorted : (pre ++ [c]).Pairwise fun c d => c.time ≤ d.time) :
    Fresh world pre c ↔ ¬ Expired world pre c := by
  have hk := knows_run world pre
  obtain ⟨hsortedPre, -, hbefore⟩ := List.pairwise_append.mp hsorted
  have hscans : Call.scans world .new (pre ++ [c]) =
      Call.scans world .new pre ++ Call.scans world (Call.run world .new pre) [c] :=
    Call.scans_append
  unfold Fresh Expired
  generalize hr : Call.run world .new pre = r at hk hscans ⊢
  have hscan : Call.scans world r [c] = if (c.resolve world r).scanned then [c] else [] := rfl
  unfold Call.resolve at hscan ⊢
  obtain ⟨a, hget, hres⟩ | ⟨hget, -, -, hres⟩ | ⟨hget, -, ⟨a, hsnap, hres⟩ | ⟨-, hres⟩⟩ :=
    r.resolve_cases c.time (world c.time) c.tuple c.outbound
  · -- a hit: the tables are those of the last scan before
    obtain ⟨d, hlast, hshown, hstale⟩ := hk.hit hget
    have hd := List.mem_of_getLast? hlast
    have hle := hbefore d (Call.scans_sublist.subset hd) c (List.mem_singleton_self c)
    rw [hres] at hscan
    simp only [Bool.false_eq_true, if_false] at hscan
    rw [hscan, List.append_nil] at hscans
    rw [hres, hget, hstale, hscans]
    simp only [Option.isSome_some, true_and, Nat.not_lt, Option.some.injEq, forall_eq']
    constructor
    · rintro ⟨⟨d', hd', hle', httl, -⟩, -⟩
      have hlater := scan_le_last hsortedPre hlast hd'
      omega
    · intro httl
      have hd' : d ∈ Call.scans world .new (pre ++ [c]) := hscans ▸ hd
      have hfresh := fresh_of_scan hd' hle (by omega) hshown
      rwa [hscans] at hfresh
  · rw [hres, hget]
    simp
  · -- a scan: what it shows is as fresh as can be
    rw [hres] at hscan
    rw [hres, hget]
    simp only [Option.isSome_none, Bool.false_eq_true, false_and, not_false_eq_true, iff_true]
    rintro a' ha'
    obtain rfl := Option.some.inj ha'
    refine fresh_of_scan (d := c) ?_ le_rfl (Nat.le_add_right _ _) hsnap
    rw [hscans, hscan]
    exact List.mem_append_right _ (List.mem_singleton_self c)
  · rw [hres, hget]
    simp

/-- **Attribution is fresh** in the runs none of whose calls is answered by expired tables. -/
theorem fresh_iff (world : Nat → Machine) (tl : Timeline) :
    (∀ pre c post, tl.calls = pre ++ c :: post → Fresh world pre c) ↔
      ∀ pre c post, tl.calls = pre ++ c :: post → ¬ Expired world pre c := by
  have hcall : ∀ pre c post, tl.calls = pre ++ c :: post →
      (Fresh world pre c ↔ ¬ Expired world pre c) := by
    intro pre c post heq
    apply fresh_call_iff
    have hsorted := tl.sorted
    rw [heq, List.append_cons] at hsorted
    exact (List.pairwise_append.mp hsorted).1
  constructor
  · exact fun h pre c post heq => (hcall pre c post heq).mp (h pre c post heq)
  · exact fun h pre c post heq => (hcall pre c post heq).mpr (h pre c post heq)

/-- A process with a socket bound to 10.0.0.2, port 5000, over UDP. -/
def sender (pid : Int) : Process where
  pid := pid
  comm := []
  pathname := none
  files := some [⟨fstTypeSocket, some ⟨17, .inet 5000 ⟨10, 0, 0, 2⟩, .other⟩⟩]

/-- The port changes hands, and a second later its former holder is named. -/
theorem fresh_fails : ¬ ∀ world : Nat → Machine, ∀ tl : Timeline, ∀ pre c post,
    tl.calls = pre ++ c :: post → Fresh world pre c := by
  intro h
  let world (i : Nat) : Machine := ⟨some [sender (if i = 0 then 100 else 101)], by simp⟩
  let t : Tuple := ⟨17, .v4 ⟨10, 0, 0, 2⟩, 5000, .v4 ⟨1, 1, 1, 1⟩, 53⟩
  let tl : Timeline := ⟨[⟨0, t, true⟩, ⟨1000000000, t, true⟩], by simp⟩
  have hfresh := h world tl [⟨0, t, true⟩] ⟨1000000000, t, true⟩ [] rfl
  rw [fresh_call_iff tl.sorted] at hfresh
  exact hfresh ⟨by decide, by decide⟩

end Pfsnitch.Procinfo
