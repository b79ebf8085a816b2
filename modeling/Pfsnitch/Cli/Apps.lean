import Pfsnitch.Policy.Normal
import Pfsnitch.Seen

/-!
# Pfsnitch.Cli.Apps

`pfsnitch apps`: the rules by application, and when each was last used.

`splitRule` takes a rule apart, `groups` collects the rules of each application and
`ruleSeen` joins a rule with the last-seen table, by the text of its destination.
-/

namespace Pfsnitch

open Lib

/-! ## a rule taken apart -/

/-- `Split`: the owning binary (empty for a rule about all of them), what the rule is
about, and its effect. -/
structure Split where
  app : Str
  dest : Str
  effect : Effect
deriving DecidableEq

/-- The effect as it is printed. -/
def Effect.text : Effect → Str
  | .allow => "allow".toList
  | .deny => "deny".toList

/-- What an app-wide rule is about. -/
def allDestinations : Str := "all destinations".toList

/-- `split_rule`. -/
def splitRule (kind value : Str) : Split :=
  let effect : Effect := if (stripPrefix "deny".toList kind).isSome then .deny else .allow
  if kind = Keyword.allowApp.text ∨ kind = Keyword.denyApp.text then
    { app := value, dest := allDestinations, effect }
  else if kind = Keyword.allowHostFrom.text ∨ kind = Keyword.allowDestFrom.text ∨
      kind = Keyword.denyHostFrom.text ∨ kind = Keyword.denyDestFrom.text then
    let (dest, rest) := splitFirst isWhitespace value
    { app := trim (rest.getD []), dest, effect }
  else { app := [], dest := value, effect }

/-- A rule of the file, taken apart. -/
def Rule.split (r : Rule) : Split := splitRule r.kind r.value

/-! ## the groups -/

/-- The groups so far, and the order in which their applications were first seen. -/
structure Groups where
  order : List Str
  groups : AList fun _ : Str => List (Rule × Split)

/-- One turn of the loop over the rules. -/
def Groups.add (g : Groups) (r : Rule) : Groups :=
  let s := r.split
  { order := if s.app ∈ g.groups then g.order else g.order ++ [s.app]
    groups := g.groups.insert s.app ((g.groups.lookup s.app).getD [] ++ [(r, s)]) }

def Groups.ofRules (rs : List Rule) : Groups := rs.foldl Groups.add ⟨[], ∅⟩

/-- `groups[app]`. -/
def Groups.rulesOf (g : Groups) (app : Str) : List (Rule × Split) := (g.groups.lookup app).getD []

/-- The groups of the rules: each application once, in the order list as in the map, and
under it its rules as they stand in the file. -/
structure Groups.Collects (g : Groups) (rs : List Rule) : Prop where
  nodup : g.order.Nodup
  keys : ∀ app, app ∈ g.groups ↔ app ∈ g.order
  order : ∀ app, app ∈ g.order ↔ ∃ r ∈ rs, r.split.app = app
  rules : ∀ app, g.rulesOf app = (rs.filter fun r => r.split.app = app).map fun r => (r, r.split)

theorem Groups.order_add_old {g : Groups} {r : Rule} (h : r.split.app ∈ g.groups) :
    (g.add r).order = g.order :=
  if_pos h

theorem Groups.order_add_new {g : Groups} {r : Rule} (h : r.split.app ∉ g.groups) :
    (g.add r).order = g.order ++ [r.split.app] :=
  if_neg h

theorem Groups.mem_order_add {g : Groups} {r : Rule} {app : Str}
    (h : ∀ app, app ∈ g.groups ↔ app ∈ g.order) :
    app ∈ (g.add r).order ↔ app ∈ g.order ∨ r.split.app = app := by
  by_cases hmem : r.split.app ∈ g.groups
  · rw [Groups.order_add_old hmem, iff_self_or]
    rintro rfl
    exact (h _).mp hmem
  · rw [Groups.order_add_new hmem, List.mem_append, List.mem_singleton, eq_comm (a := app)]

/-- One turn of the loop adds the rule to the group of its application. -/
theorem Groups.Collects.add {g : Groups} {rs : List Rule} (h : g.Collects rs) (r : Rule) :
    (g.add r).Collects (rs ++ [r]) where
  nodup := by
    by_cases hmem : r.split.app ∈ g.groups
    · rw [Groups.order_add_old hmem]
      exact h.nodup
    · have hnew : r.split.app ∉ g.order := fun horder => hmem ((h.keys _).mpr horder)
      rw [Groups.order_add_new hmem]
      simpa using h.nodup.concat hnew
  keys := by
    intro app
    rw [Groups.mem_order_add h.keys, ← h.keys, Groups.add, AList.mem_insert, or_comm,
      eq_comm (a := app)]
  order := by
    intro app
    simp only [Groups.mem_order_add h.keys, h.order, List.mem_append, List.mem_singleton,
      or_and_right, exists_or, exists_eq_left]
  rules := by
    intro app
    have hgroups : (g.add r).rulesOf app = ((g.groups.insert r.split.app
        (g.rulesOf r.split.app ++ [(r, r.split)])).lookup app).getD [] := rfl
    rw [hgroups, List.filter_append]
    by_cases happ : app = r.split.app
    · subst happ
      rw [AList.lookup_insert, Option.getD_some, h.rules]
      simp
    · rw [AList.lookup_insert_ne happ, ← Groups.rulesOf, h.rules]
      simp [Ne.symm happ]

/-- The loop over the rules. -/
theorem Groups.collects_ofRules (rs : List Rule) : (Groups.ofRules rs).Collects rs := by
  induction rs using List.reverseRecOn with
  | nil => exact ⟨List.nodup_nil, by simp [Groups.ofRules], by simp [Groups.ofRules], fun _ => rfl⟩
  | append_singleton rs r ih =>
      rw [Groups.ofRules, List.foldl_concat]
      exact ih.add r

/-! ## when a rule was last used -/

/-- `Iterator::max`. -/
def latest : List UInt64 → Option UInt64
  | [] => none
  | t :: ts => some ((latest ts).elim t (max t))

/-- The most recent time of the entries that a test selects. -/
def latestOf (last : LastSeen) (p : Str × Str → Bool) : Option UInt64 :=
  latest ((last.entries.filter fun e => p e.1).map (·.2))

section

variable [Casing]

/-- The destination of a rule as it is looked up: without its port, in lower case. -/
def Split.host (s : Split) : Str := lower (splitTarget s.dest).1

/-- `rule_seen`. -/
def ruleSeen (last : LastSeen) (app : Str) (s : Split) : Option UInt64 :=
  if app = [] then latestOf last fun k => k.2 = s.host
  else if s.dest = allDestinations then latestOf last fun k => k.1 = app
  else last.lookup (app, s.host)

end

/-! ## what is found in the table -/

variable {ts : List UInt64} {t a : UInt64} {last : LastSeen}

end Pfsnitch
