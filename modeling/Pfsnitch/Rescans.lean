import Pfsnitch.Lib.Returns
import Pfsnitch.Procinfo.Resolver

/-!
# Pfsnitch.Rescans

How often flows that nobody owns make the resolver walk the process table.

The walk clears the memory of misses and leaves only the flow that asked for it.  So
within one window the flows without owner walk the table once each time the flow changes
(`flows_scans`): every one of them at most once exactly when none comes back after another
one (`rescan_once_iff`), and two of them in turns each time (`rescan_once_fails`).
-/

namespace Pfsnitch.Procinfo

open Lib

variable {m : Machine} {r : Resolver} {c : Call} {cs : List Call} {start : Nat} {u : Tuple}

/-- The flows of the calls that no scan of this machine can attribute. -/
def flows (m : Machine) (cs : List Call) : List Tuple :=
  (cs.filter fun c => ((snapshot m).get c.tuple c.outbound).isNone).map Call.tuple

/-- Calls within one window. -/
structure Window (ttl : Nat) where
  start : Nat
  calls : List Call
  within : ∀ c ∈ calls, start ≤ c.time ∧ c.time ≤ start + ttl

/-- Does the resolver answer the call without a walk? -/
def Resolver.quiet (r : Resolver) (c : Call) : Bool :=
  (r.tables.get c.tuple c.outbound).isSome || (!r.stale c.time && decide (c.tuple ∈ r.missed))

/-- The resolver has scanned this machine in the window. -/
structure Resolver.Settled (m : Machine) (start : Nat) (r : Resolver) : Prop where
  tables : r.tables = snapshot m
  lastScan : ∃ i, r.lastScan = some i ∧ start ≤ i

theorem flows_cons_some (h : ((snapshot m).get c.tuple c.outbound).isSome) :
    flows m (c :: cs) = flows m cs := by
  obtain ⟨a, ha⟩ := Option.isSome_iff_exists.mp h
  rw [flows, List.filter_cons_of_neg (by simp [ha])]
  rfl

theorem flows_cons_none (h : (snapshot m).get c.tuple c.outbound = none) :
    flows m (c :: cs) = c.tuple :: flows m cs := by
  rw [flows, List.filter_cons_of_pos (by simp [h])]
  rfl

/-! ## before the first walk -/

theorem resolve_of_quiet (world : Nat → Machine) (h : r.quiet c = true) :
    (c.resolve world r).resolver = r ∧ (c.resolve world r).scanned = false := by
  rw [Call.resolve]
  obtain ⟨a, -, hres⟩ | ⟨-, -, -, hres⟩ | ⟨hget, hmiss, -⟩ :=
    r.resolve_cases c.time (world c.time) c.tuple c.outbound
  · rw [hres]
    exact ⟨rfl, rfl⟩
  · rw [hres]
    exact ⟨rfl, rfl⟩
  · rw [Resolver.quiet, hget] at h
    simp at h
    obtain hstale | hmem := hmiss
    · rw [h.1] at hstale
      cases hstale
    · exact absurd h.2 hmem

/-- The calls before the first walk change nothing. -/
theorem scans_dropWhile (world : Nat → Machine) :
    Call.scans world r (cs.dropWhile r.quiet) = Call.scans world r cs := by
  induction cs with
  | nil => rfl
  | cons c cs ih =>
      cases hq : r.quiet c with
      | false => rw [List.dropWhile_cons_of_neg (by simp [hq])]
      | true =>
          obtain ⟨hr, hscan⟩ := resolve_of_quiet world hq
          rw [List.dropWhile_cons_of_pos hq, ih, Call.scans, hr, hscan]
          rfl

/-! ## after it -/

/-- Nothing expires within the window. -/
theorem Resolver.Settled.stale (h : r.Settled m start) (hc : c.time ≤ start + r.ttl) :
    r.stale c.time = false := by
  obtain ⟨i, hi, hle⟩ := h.lastScan
  rw [Resolver.stale, hi, decide_eq_false_iff_not]
  omega

/-- What scanning leaves behind, at a call within the window. -/
theorem settled_rescan (hc : start ≤ c.time) : (r.rescan c.time m).Settled m start :=
  ⟨rfl, c.time, rfl, hc⟩

theorem Resolver.Settled.miss (h : r.Settled m start) (t : Tuple) : (r.miss t).Settled m start :=
  ⟨h.tables, h.lastScan⟩

/-- With one miss in memory, a flow walks the table when it differs from the one before. -/
theorem flows_scans_missed (hr : r.Settled m start) (hmissed : r.missed = {u})
    (hwin : ∀ c ∈ cs, start ≤ c.time ∧ c.time ≤ start + r.ttl) :
    u :: flows m (Call.scans (fun _ => m) r cs) = (flows m cs).destutter' (· ≠ ·) u := by
  induction cs generalizing r u with
  | nil => rfl
  | cons c cs ih =>
      have hc := hwin c List.mem_cons_self
      have hcs : ∀ d ∈ cs, start ≤ d.time ∧ d.time ≤ start + r.ttl :=
        fun d hd => hwin d (List.mem_cons_of_mem c hd)
      rw [Call.scans, Call.resolve]
      obtain ⟨a, hget, hres⟩ | ⟨hget, -, hmem, hres⟩ | ⟨hget, hmiss, ⟨a, hsnap, -⟩ | ⟨-, hres⟩⟩ :=
        r.resolve_cases c.time m c.tuple c.outbound
      all_goals rw [hr.tables] at hget
      · rw [hres, flows_cons_some (by rw [hget]; rfl)]
        exact ih hr hmissed hcs
      · rw [hres, flows_cons_none hget]
        rw [hmissed, Finset.mem_singleton] at hmem
        rw [hmem, List.destutter'_cons_neg _ (not_not.mpr rfl)]
        exact ih hr hmissed hcs
      · rw [hget] at hsnap
        cases hsnap
      · have hne : u ≠ c.tuple := by
          rintro rfl
          obtain hstale | hmem := hmiss
          · rw [hr.stale hc.2] at hstale
            cases hstale
          · exact hmem (by rw [hmissed]; exact Finset.mem_singleton_self _)
        have hr' := (settled_rescan (m := m) (r := r) hc.1).miss c.tuple
        rw [hres, flows_cons_none hget, List.destutter'_cons_pos _ hne, if_pos rfl,
          flows_cons_none hget]
        exact congrArg _ (ih hr' rfl hcs)

/-- With no miss in memory, the first flow walks the table as well. -/
theorem flows_scans_fresh (hr : r.Settled m start) (hmissed : r.missed = ∅)
    (hwin : ∀ c ∈ cs, start ≤ c.time ∧ c.time ≤ start + r.ttl) :
    flows m (Call.scans (fun _ => m) r cs) = (flows m cs).destutter (· ≠ ·) := by
  induction cs with
  | nil => rfl
  | cons c cs ih =>
      have hc := hwin c List.mem_cons_self
      have hcs : ∀ d ∈ cs, start ≤ d.time ∧ d.time ≤ start + r.ttl :=
        fun d hd => hwin d (List.mem_cons_of_mem c hd)
      rw [Call.scans, Call.resolve]
      obtain ⟨a, hget, hres⟩ | ⟨-, -, hmem, -⟩ | ⟨hget, -, ⟨a, hsnap, -⟩ | ⟨-, hres⟩⟩ :=
        r.resolve_cases c.time m c.tuple c.outbound
      · rw [hr.tables] at hget
        rw [hres, flows_cons_some (by rw [hget]; rfl)]
        exact ih hcs
      · rw [hmissed] at hmem
        exact absurd hmem (Finset.notMem_empty _)
      · rw [hr.tables, hsnap] at hget
        cases hget
      · rw [hr.tables] at hget
        have hr' := (settled_rescan (m := m) (r := r) hc.1).miss c.tuple
        rw [hres, if_pos rfl, flows_cons_none hget, flows_cons_none hget, List.destutter_cons']
        exact flows_scans_missed hr' rfl hcs

/-! ## the window -/

/-- The walks in a window: one each time that the flow changes. -/
theorem flows_scans (m : Machine) (r : Resolver) (w : Window r.ttl) :
    flows m (Call.scans (fun _ => m) r w.calls) =
      (flows m (w.calls.dropWhile r.quiet)).destutter (· ≠ ·) := by
  rw [← scans_dropWhile]
  have hwin : ∀ c ∈ w.calls.dropWhile r.quiet, w.start ≤ c.time ∧ c.time ≤ w.start + r.ttl :=
    fun c hc => w.within c ((List.dropWhile_sublist _).subset hc)
  have hloud := List.head?_dropWhile_not r.quiet w.calls
  cases hcs : w.calls.dropWhile r.quiet with
  | nil => rfl
  | cons c cs =>
      rw [hcs] at hwin hloud
      have hc := hwin c List.mem_cons_self
      have hcs : ∀ d ∈ cs, w.start ≤ d.time ∧ d.time ≤ w.start + r.ttl :=
        fun d hd => hwin d (List.mem_cons_of_mem c hd)
      have hloud : r.quiet c = false := by simpa using hloud
      rw [Call.scans, Call.resolve]
      obtain ⟨a, hget, -⟩ | ⟨-, hstale, hmem, -⟩ | ⟨-, -, ⟨a, hsnap, hres⟩ | ⟨hsnap, hres⟩⟩ :=
        r.resolve_cases c.time m c.tuple c.outbound
      · simp [Resolver.quiet, hget] at hloud
      · simp [Resolver.quiet, hstale, hmem] at hloud
      · have hsome : ((snapshot m).get c.tuple c.outbound).isSome := by rw [hsnap]; rfl
        rw [hres, if_pos rfl, flows_cons_some hsome, flows_cons_some hsome]
        exact flows_scans_fresh (settled_rescan hc.1) rfl hcs
      · have hr' := (settled_rescan (m := m) (r := r) hc.1).miss c.tuple
        rw [hres, if_pos rfl, flows_cons_none hsnap, flows_cons_none hsnap, List.destutter_cons']
        exact flows_scans_missed hr' rfl hcs

/-- **Misses do not force endless rescans** in the windows in which, from the first walk on,
no flow without owner comes back after another one. -/
theorem rescan_once_iff (m : Machine) (r : Resolver) (w : Window r.ttl) :
    (∀ t, (flows m (Call.scans (fun _ => m) r w.calls)).count t ≤ 1) ↔
      NoReturn (flows m (w.calls.dropWhile r.quiet)) := by
  rw [← nodup_destutter_iff, ← flows_scans, List.nodup_iff_count_le_one]

/-- Two flows of an idle machine in turns: the first one walks the table twice. -/
theorem rescan_once_fails : ¬ ∀ (m : Machine) (w : Window Resolver.new.ttl) (t : Tuple),
    (flows m (Call.scans (fun _ => m) .new w.calls)).count t ≤ 1 := by
  intro h
  let m : Machine := ⟨some [], List.nodup_nil⟩
  let t (port : UInt16) : Tuple := ⟨17, .v4 ⟨10, 0, 0, 2⟩, port, .v4 ⟨1, 1, 1, 1⟩, 53⟩
  let w : Window Resolver.new.ttl :=
    ⟨0, [⟨0, t 1, true⟩, ⟨0, t 2, true⟩, ⟨0, t 1, true⟩], by decide⟩
  exact absurd (h m w (t 1)) (by decide)

end Pfsnitch.Procinfo
