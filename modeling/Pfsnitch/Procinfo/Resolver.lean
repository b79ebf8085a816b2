import Pfsnitch.Procinfo.Tables

/-!
# Pfsnitch.Procinfo.Resolver

Cached attribution: the `Resolver` of `procinfo.rs`, call after call.

Instants are nanoseconds of a monotonic clock, which stands still within a call.  The
machine changes between the calls: `world` says what a scan meets at each instant.
-/

namespace Pfsnitch.Procinfo

/-- The tables of the last scan, when it was made, and the flows that have missed since. -/
structure Resolver where
  tables : Tables
  lastScan : Option Nat
  ttl : Nat
  missed : Finset Tuple

/-- The outcome of `resolve`, and whether it walked the process table. -/
structure Resolved where
  resolver : Resolver
  found : Option Attribution
  scanned : Bool

namespace Resolver

def new : Resolver := ⟨.default, none, 750 * 1000000, ∅⟩

def rescan (r : Resolver) (now : Nat) (m : Machine) : Resolver :=
  { r with tables := snapshot m, lastScan := some now, missed := ∅ }

/-- Is there no scan, or has it expired? -/
def stale (r : Resolver) (now : Nat) : Bool :=
  match r.lastScan with
  | some i => now - i > r.ttl
  | none => true

/-- Remember a flow that was looked up in vain. -/
def miss (r : Resolver) (t : Tuple) : Resolver := { r with missed := insert t r.missed }

/-- Resolve a flow to its owner, rescanning once if the tables miss. -/
def resolve (r : Resolver) (now : Nat) (m : Machine) (t : Tuple) (outbound : Bool) : Resolved :=
  match r.tables.get t outbound with
  | some a => ⟨r, some a, false⟩
  | none =>
    if r.stale now || t ∉ r.missed then
      let r := r.rescan now m
      match r.tables.get t outbound with
      | some a => ⟨r, some a, true⟩
      | none => ⟨r.miss t, none, true⟩
    else ⟨r.miss t, none, false⟩

variable {r : Resolver} {now : Nat} {m : Machine} {t : Tuple} {outbound : Bool}

/-- A call is answered by the tables at hand, leaves the resolver as it is, or scans. -/
theorem resolve_cases (r : Resolver) (now : Nat) (m : Machine) (t : Tuple) (outbound : Bool) :
    (∃ a, r.tables.get t outbound = some a ∧ r.resolve now m t outbound = ⟨r, some a, false⟩) ∨
    (r.tables.get t outbound = none ∧ r.stale now = false ∧ t ∈ r.missed ∧
      r.resolve now m t outbound = ⟨r, none, false⟩) ∨
    (r.tables.get t outbound = none ∧ (r.stale now = true ∨ t ∉ r.missed) ∧
      ((∃ a, (snapshot m).get t outbound = some a ∧
          r.resolve now m t outbound = ⟨r.rescan now m, some a, true⟩) ∨
        ((snapshot m).get t outbound = none ∧
          r.resolve now m t outbound = ⟨(r.rescan now m).miss t, none, true⟩))) := by
  unfold resolve
  cases hget : r.tables.get t outbound with
  | some a => exact .inl ⟨a, rfl, rfl⟩
  | none =>
      right
      by_cases hmiss : r.stale now = true ∨ t ∉ r.missed
      · refine .inr ⟨rfl, hmiss, ?_⟩
        have hscan : (r.stale now || decide (t ∉ r.missed)) = true := by simpa using hmiss
        have hget' : (r.rescan now m).tables.get t outbound = (snapshot m).get t outbound := rfl
        simp only [hscan, if_true, hget']
        cases (snapshot m).get t outbound with
        | some a => exact .inl ⟨a, rfl, rfl⟩
        | none => exact .inr ⟨rfl, rfl⟩
      · rw [not_or, not_not, Bool.not_eq_true] at hmiss
        obtain ⟨hfresh, hmem⟩ := hmiss
        have hsame : r.miss t = r := by rw [miss, Finset.insert_eq_of_mem hmem]
        exact .inl ⟨rfl, hfresh, hmem, by simp [hfresh, hmem, hsame]⟩

end Resolver

/-! ## calls one after the other -/

/-- A call of `resolve`. -/
structure Call where
  time : Nat
  tuple : Tuple
  outbound : Bool

namespace Call

variable (world : Nat → Machine)

/-- The call, with the machine as it is then. -/
def resolve (c : Call) (r : Resolver) : Resolved :=
  r.resolve c.time (world c.time) c.tuple c.outbound

/-- The resolver after some calls. -/
def run (r : Resolver) (cs : List Call) : Resolver :=
  cs.foldl (fun r c => (c.resolve world r).resolver) r

/-- The calls that walk the process table. -/
def scans : Resolver → List Call → List Call
  | _, [] => []
  | r, c :: cs =>
    let res := c.resolve world r
    if res.scanned then c :: scans res.resolver cs else scans res.resolver cs

variable {world} {r : Resolver} {cs ds : List Call} {c : Call}

@[simp] theorem run_cons :
    run world r (c :: cs) = run world (c.resolve world r).resolver cs := rfl

@[simp] theorem run_append : run world r (cs ++ ds) = run world (run world r cs) ds :=
  List.foldl_append

theorem scans_append : scans world r (cs ++ ds) =
    scans world r cs ++ scans world (run world r cs) ds := by
  induction cs generalizing r with
  | nil => rfl
  | cons c cs ih =>
      rw [List.cons_append, scans, scans, run_cons, ih]
      split <;> simp

theorem scans_sublist : (scans world r cs).Sublist cs := by
  induction cs generalizing r with
  | nil => exact .slnil
  | cons c cs ih =>
      rw [scans]
      split
      · exact ih.cons_cons c
      · exact ih.cons c

end Call

/-- Calls in the order of their times. -/
structure Timeline where
  calls : List Call
  sorted : calls.Pairwise fun c d => c.time ≤ d.time

end Pfsnitch.Procinfo
