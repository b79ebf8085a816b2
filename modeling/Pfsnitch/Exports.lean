import Pfsnitch.Cli.Json

/-!
# Pfsnitch.Exports

The rule list as a frontend reads it.

A frontend parses what `rules --json` and `apps --json` print and looks up the fields by
their names.  It gets the rules of the file (`frontend_reads_rules`): as a list, and
divided among the applications.
-/

namespace Pfsnitch

open Lib Lib.Json

/-! ## a frontend -/

/-- A group of `apps --json`. -/
structure AppGroup where
  app : Str
  allow : Nat
  deny : Nat
  total : Nat
  rules : List Rule

def readRule (v : Json) : Option Rule := do
  let kind ← (v.field "kind".toList).bind asString
  let value ← (v.field "value".toList).bind asString
  let comment ← (v.field "comment".toList).bind (orNull asString)
  some ⟨kind, value, comment⟩

def readGroup (v : Json) : Option AppGroup := do
  let app ← (v.field "app".toList).bind asString
  let allow ← (v.field "allow".toList).bind asNat
  let deny ← (v.field "deny".toList).bind asNat
  let total ← (v.field "total".toList).bind asNat
  let rules ← (v.field "rules".toList).bind asArray
  let rules ← rules.mapM readRule
  some ⟨app, allow, deny, total, rules⟩

/-- The rules of a well-formed text. -/
def readRules (txt : Str) : Option (List Rule) :=
  ((Json.parse txt).bind asArray).bind fun vs => vs.mapM readRule

/-- The groups of a well-formed text. -/
def readApps (txt : Str) : Option (List AppGroup) :=
  (((Json.parse txt).bind (·.field "apps".toList)).bind asArray).bind fun vs => vs.mapM readGroup

/-- The rules are divided among the groups by their applications: none is lost or
repeated, those of a group stand as they do in the file, and they are counted. -/
structure Divided (rs : List Rule) (gs : List AppGroup) : Prop where
  apps : (gs.map (·.app)).Nodup
  whole : (gs.flatMap (·.rules)).Perm rs
  one : ∀ r ∈ rs, ∃! g, g ∈ gs ∧ r ∈ g.rules
  rules : ∀ g ∈ gs, g.rules = rs.filter fun r => r.split.app = g.app
  allow : ∀ g ∈ gs, g.allow = g.rules.countP fun r => r.split.effect = .allow
  deny : ∀ g ∈ gs, g.deny = g.rules.countP fun r => r.split.effect = .deny
  total : ∀ g ∈ gs, g.total = g.rules.length

variable {rs : List Rule} {gs : List AppGroup}

/-! ## a list divided by a key -/

section

variable {α β γ : Type} {l : List α}

/-- A list is put together again from the parts of each key. -/
theorem perm_flatMap_filter [DecidableEq β] {key : α → β} {keys : List β} (hkeys : keys.Nodup)
    (h : ∀ a ∈ l, key a ∈ keys) :
    (keys.flatMap fun k => l.filter fun a => key a = k).Perm l := by
  induction keys generalizing l with
  | nil =>
      obtain rfl : l = [] := List.eq_nil_iff_forall_not_mem.mpr fun a ha => by simpa using h a ha
      rfl
  | cons k keys ih =>
      obtain ⟨hk, hkeys⟩ := List.nodup_cons.mp hkeys
      have hothers : (keys.flatMap fun k' => l.filter fun a => key a = k') =
          keys.flatMap fun k' =>
            (l.filter fun a => !decide (key a = k)).filter fun a => key a = k' := by
        refine List.flatMap_congr fun k' hk' => ?_
        rw [List.filter_filter]
        refine List.filter_congr fun a _ => ?_
        by_cases ha : key a = k'
        · have hne : k' ≠ k := fun heq => hk (heq ▸ hk')
          simp [ha, hne]
        · simp [ha]
      have hrest := ih (l := l.filter fun a => !decide (key a = k)) hkeys (by
        intro a ha
        simp only [List.mem_filter, Bool.not_eq_true', decide_eq_false_iff_not] at ha
        exact List.mem_of_ne_of_mem ha.2 (h a ha.1))
      rw [List.flatMap_cons, hothers]
      exact (hrest.append_left _).trans (List.filter_append_perm _ l)

/-- What each item is read from is read back item by item. -/
theorem mapM_map {write : α → γ} {read : γ → Option β} {f : α → β}
    (h : ∀ a ∈ l, read (write a) = some (f a)) : (l.map write).mapM read = some (l.map f) := by
  induction l with
  | nil => rfl
  | cons a l ih =>
      have hl := ih fun b hb => h b (by simp [hb])
      rw [List.map_cons, List.mapM_cons, h a (by simp), hl]
      rfl

end

/-! ## what it reads -/

theorem readRule_ruleValue (r : Rule) : readRule (ruleValue r) = some r := by
  obtain ⟨kind, value, comment⟩ := r
  cases comment with
  | none => rfl
  | some c => rfl

theorem asNat_number (n : Nat) : asNat (.number n 0) = some n := by
  simp [asNat]

variable [Casing] {last : LastSeen} {app : Str}

theorem readRule_appRuleValue (now : Option Nat → UInt64) (x : (Rule × Split) × Nat) :
    readRule (appRuleValue last app now x) = some x.1.1 := by
  obtain ⟨⟨⟨kind, value, comment⟩, s⟩, j⟩ := x
  cases comment with
  | none => rfl
  | some c => rfl

/-- The group of an application, as it is counted. -/
def groupOf (rs : List Rule) (app : Str) : AppGroup :=
  let own := rs.filter fun r => r.split.app = app
  ⟨app, own.countP fun r => r.split.effect = .allow,
    own.length - own.countP fun r => r.split.effect = .allow, own.length, own⟩

/-- A group is read back with its counts and its rules. -/
theorem readGroup_appValue {g : Groups} (hg : g.Collects rs)
    (clock : Nat → Option Nat → UInt64) (x : Str × Nat) :
    readGroup (appValue last g clock x) = some (groupOf rs x.1) := by
  obtain ⟨app, i⟩ := x
  have hrules : ((g.rulesOf app).zipIdx.map (appRuleValue last app (clock i))).mapM readRule =
      some ((g.rulesOf app).map (·.1)) := by
    have hfst : (g.rulesOf app).zipIdx.map (fun x => x.1.1) =
        ((g.rulesOf app).zipIdx.map Prod.fst).map (·.1) := by
      rw [List.map_map]
      rfl
    rw [mapM_map fun x _ => readRule_appRuleValue (clock i) x, hfst, List.zipIdx_map_fst]
  have happ : (appValue last g clock (app, i)).field "app".toList = some (.string app) := rfl
  have hallow : (appValue last g clock (app, i)).field "allow".toList =
      some (.number ((g.rulesOf app).countP fun x => x.2.effect = .allow) 0) := rfl
  have hdeny : (appValue last g clock (app, i)).field "deny".toList = some (.number
      ((g.rulesOf app).length - (g.rulesOf app).countP fun x => x.2.effect = .allow : Nat) 0) := rfl
  have htotal : (appValue last g clock (app, i)).field "total".toList =
      some (.number (g.rulesOf app).length 0) := rfl
  have hfield : (appValue last g clock (app, i)).field "rules".toList =
      some (.array ((g.rulesOf app).zipIdx.map (appRuleValue last app (clock i)))) := rfl
  simp only [readGroup, happ, hallow, hdeny, htotal, hfield, Option.bind_some, asString,
    asNat_number, asArray, hrules, Option.bind_eq_bind]
  simp [groupOf, hg.rules, List.countP_map, Function.comp_def]

/-! ## the result -/

omit [Casing] in
theorem readRules_rulesJson (text : Option Str) :
    readRules (rulesJson text) = some (rules text) := by
  have hread : ((rules text).map ruleValue).mapM readRule = some ((rules text).map id) :=
    mapM_map fun r _ => readRule_ruleValue r
  rw [readRules, parse_rulesJson, Option.bind_some, asArray, Option.bind_some, hread, List.map_id]

/-- The groups are read back as they were collected. -/
theorem readApps_appsJson (text seenText : Option Str) (clock : Nat → Option Nat → UInt64) :
    readApps (appsJson text seenText clock) =
      some ((Groups.ofRules (rules text)).sorted.map (groupOf (rules text))) := by
  have hg : (Groups.ofRules (rules text)).Collects (rules text) := Groups.collects_ofRules _
  have hfst : (Groups.ofRules (rules text)).sorted.zipIdx.map (fun x => groupOf (rules text) x.1) =
      ((Groups.ofRules (rules text)).sorted.zipIdx.map Prod.fst).map (groupOf (rules text)) := by
    rw [List.map_map]
    rfl
  have hfield : ∀ vs, (Json.object [("apps".toList, .array vs)]).field "apps".toList =
      some (.array vs) := fun _ => rfl
  rw [readApps, parse_appsJson, Option.bind_some, hfield, Option.bind_some, asArray,
    Option.bind_some, mapM_map fun x _ => readGroup_appValue hg clock x, hfst, List.zipIdx_map_fst]

omit [Casing] in
/-- What is not allowed is denied. -/
theorem countP_deny (rs : List Rule) :
    rs.length - rs.countP (fun r => r.split.effect = .allow) =
      rs.countP fun r => r.split.effect = .deny := by
  have hall := rs.length_eq_countP_add_countP fun r => decide (r.split.effect = .allow)
  have hdeny : rs.countP (fun r => ¬ decide (r.split.effect = .allow) = true) =
      rs.countP fun r => r.split.effect = .deny := by
    refine List.countP_congr fun r _ => ?_
    cases r.split.effect with
    | allow => decide
    | deny => decide
  rw [hall, hdeny]
  omega

omit [Casing] in
/-- The groups of applications that are listed once each, and are those of the rules. -/
theorem divided_groupOf {apps : List Str} (hnodup : apps.Nodup)
    (happs : ∀ app, app ∈ apps ↔ ∃ r ∈ rs, r.split.app = app) :
    Divided rs (apps.map (groupOf rs)) where
  apps := by
    have hmap : (apps.map (groupOf rs)).map (·.app) = apps := by
      rw [List.map_map]
      exact List.map_id apps
    rwa [hmap]
  whole := by
    rw [List.flatMap_map]
    exact perm_flatMap_filter hnodup fun r hr => (happs _).mpr ⟨r, hr, rfl⟩
  one := by
    intro r hr
    have hmem {app : Str} : r ∈ (groupOf rs app).rules ↔ r.split.app = app := by
      simp [groupOf, hr]
    refine ⟨groupOf rs r.split.app, ⟨?_, hmem.mpr rfl⟩, ?_⟩
    · exact List.mem_map_of_mem ((happs _).mpr ⟨r, hr, rfl⟩)
    · rintro g ⟨hg, hgr⟩
      obtain ⟨app, -, rfl⟩ := List.mem_map.mp hg
      rw [hmem.mp hgr]
  rules := by
    intro g hg
    obtain ⟨app, -, rfl⟩ := List.mem_map.mp hg
    rfl
  allow := by
    intro g hg
    obtain ⟨app, -, rfl⟩ := List.mem_map.mp hg
    rfl
  deny := by
    intro g hg
    obtain ⟨app, -, rfl⟩ := List.mem_map.mp hg
    exact countP_deny _
  total := by
    intro g hg
    obtain ⟨app, -, rfl⟩ := List.mem_map.mp hg
    rfl

/-- The JSON a frontend reads is the rule list. -/
theorem frontend_reads_rules (text seenText : Option Str) (clock : Nat → Option Nat → UInt64) :
    readRules (rulesJson text) = some (rules text) ∧
      ∃ gs, readApps (appsJson text seenText clock) = some gs ∧ Divided (rules text) gs := by
  have hg : (Groups.ofRules (rules text)).Collects (rules text) := Groups.collects_ofRules _
  have hperm : (Groups.ofRules (rules text)).sorted.Perm (Groups.ofRules (rules text)).order :=
    List.mergeSort_perm _ _
  refine ⟨readRules_rulesJson text, _, readApps_appsJson text seenText clock, ?_⟩
  refine divided_groupOf (hperm.nodup_iff.mpr hg.nodup) fun app => ?_
  rw [hperm.mem_iff, hg.order]

end Pfsnitch
