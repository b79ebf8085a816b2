import Pfsnitch.Policy.Decide

/-!
# Pfsnitch.Policy.Meaning

What a policy file says.  Every line denotes an entry, gives a setting or says
nothing; the entries of the loaded policy are exactly the entries its lines
denote (`has_load`), its default is the last valid one (`default_load`), and a
query is settled by the lines that cover it (`decide_load`).
-/

namespace Pfsnitch

open Lib

variable [Casing]

/-! ## what one line denotes -/

/-- The entry a directive with its value denotes. -/
def Keyword.denotes (k : Keyword) (v : Str) : Option Entry :=
  match k with
  | .allowApp => some ⟨.allow, .app v⟩
  | .denyApp => some ⟨.deny, .app v⟩
  | .allowHost => some ⟨.allow, .host (parseHost v).1 (parseHost v).2⟩
  | .denyHost => some ⟨.deny, .host (parseHost v).1 (parseHost v).2⟩
  | .allowDest => (parseDest v).map fun d => ⟨.allow, .dest d.1 d.2⟩
  | .denyDest => (parseDest v).map fun d => ⟨.deny, .dest d.1 d.2⟩
  | .allowHostFrom => (parseHostFrom v).map fun r => ⟨.allow, .hostFrom r.1 r.2.1 r.2.2⟩
  | .denyHostFrom => (parseHostFrom v).map fun r => ⟨.deny, .hostFrom r.1 r.2.1 r.2.2⟩
  | .allowDestFrom => (parseDestFrom v).map fun r => ⟨.allow, .destFrom r.1 r.2.1 r.2.2⟩
  | .denyDestFrom => (parseDestFrom v).map fun r => ⟨.deny, .destFrom r.1 r.2.1 r.2.2⟩
  | .default | .prompt | .appId | .mode | .attribution => none

/-- The entry a raw line denotes. -/
def lineEntry (raw : Str) : Option Entry := (directive raw).bind fun d => d.1.denotes d.2

omit [Casing] in
/-- The default a raw line sets, when it sets one. -/
def lineDefault (raw : Str) : Option Verdict :=
  match directive raw with
  | some (.default, v) => parseDefault v
  | _ => none

/-- A line with the effect that covers the query. -/
def LineCovers (eff : Effect) (raw : Str) (q : Query) : Prop :=
  ∃ s, lineEntry raw = some ⟨eff, s⟩ ∧ s.Covers q

/-- Directives that give a rule. -/
def Keyword.isRule : Keyword → Bool
  | .default | .prompt | .appId | .mode | .attribution => false
  | _ => true

/-- Single-valued directives. -/
def Keyword.isSetting : Keyword → Bool
  | .default | .prompt | .mode | .attribution => true
  | _ => false

/-- A rule line: its keyword is one of the ten rule kinds. -/
def isRuleLine (raw : Str) : Bool := (directive raw).any fun d => d.1.isRule

/-- A setting line: its keyword is single-valued. -/
def isSettingLine (raw : Str) : Bool := (directive raw).any fun d => d.1.isSetting

/-- The last valid default of some lines; ask when there is none. -/
def lastDefault (ls : List Str) : Verdict := ((ls.filterMap lineDefault).getLast?).getD .ask

/-! ## what one line does -/

/-- A line that denotes an entry inserts it. -/
theorem Policy.apply_of_denotes {p : Policy} {k : Keyword} {v : Str} {e : Entry}
    (h : k.denotes v = some e) : p.apply k v = p.insert e := by
  cases k <;> simp only [Keyword.denotes, Option.map_eq_some_iff, Option.some.injEq,
    reduceCtorEq] at h
  case allowApp | denyApp | allowHost | denyHost => subst h; rfl
  all_goals
    obtain ⟨x, hx, rfl⟩ := h
    simp only [Policy.apply, hx, insertSome]
    rfl

/-- A line that denotes no entry leaves the rule sets alone. -/
theorem Policy.has_apply_of_denotes_none {p : Policy} {k : Keyword} {v : Str}
    (h : k.denotes v = none) (e : Entry) : (p.apply k v).Has e ↔ p.Has e := by
  cases k <;> simp only [Keyword.denotes, Option.map_eq_none_iff, reduceCtorEq] at h
  case default | appId | mode | attribution =>
    simp only [Policy.apply]
    split
    · rcases e with ⟨_ | _, _ | _ | _ | _ | _⟩ <;> rfl
    · rfl
  case prompt => rcases e with ⟨_ | _, _ | _ | _ | _ | _⟩ <;> rfl
  all_goals
    simp only [Policy.apply, h, insertSome]

/-- The entries after one line: those before it and the one it denotes. -/
theorem Policy.has_loadLine {p : Policy} {raw : Str} {e : Entry} :
    (p.loadLine raw).Has e ↔ p.Has e ∨ lineEntry raw = some e := by
  unfold Policy.loadLine lineEntry
  cases hd : directive raw with
  | none => simp
  | some d =>
      obtain ⟨k, v⟩ := d
      simp only [Option.bind_some]
      cases he : k.denotes v with
      | none => simp [Policy.has_apply_of_denotes_none he]
      | some f =>
          rw [Policy.apply_of_denotes he, Policy.has_insert, Option.some.injEq, or_comm, eq_comm]

/-- Only a `default` line changes the default. -/
theorem Policy.default_loadLine {p : Policy} {raw : Str} :
    (p.loadLine raw).default = (lineDefault raw).or p.default := by
  unfold Policy.loadLine lineDefault
  cases hd : directive raw with
  | none => rfl
  | some d =>
      obtain ⟨k, v⟩ := d
      cases k
      case default =>
        simp only [Policy.apply]
        cases parseDefault v <;> rfl
      all_goals
        simp only [Policy.apply]
        first
          | rfl
          | split <;> rfl

/-! ## what a file denotes -/

theorem Policy.has_foldl_loadLine {p : Policy} {ls : List Str} {e : Entry} :
    (ls.foldl Policy.loadLine p).Has e ↔ p.Has e ∨ ∃ l ∈ ls, lineEntry l = some e := by
  induction ls generalizing p with
  | nil => simp
  | cons l ls ih => simp [ih, Policy.has_loadLine, or_assoc]

omit [Casing] in
/-- A field that every line sets anew or leaves alone is the last that was set. -/
theorem foldl_last {α β σ : Type} {step : σ → α → σ} {sets : α → Option β} (field : σ → Option β)
    (h : ∀ s a, field (step s a) = (sets a).or (field s)) (ls : List α) (s : σ) :
    field (ls.foldl step s) = ((ls.filterMap sets).getLast?).or (field s) := by
  induction ls generalizing s with
  | nil => rfl
  | cons l ls ih =>
      rw [List.foldl_cons, ih, h, List.filterMap_cons]
      cases sets l with
      | none => rfl
      | some d =>
          simp only [Option.some_or, List.getLast?_cons]
          cases (ls.filterMap sets).getLast? <;> rfl

theorem Policy.default_foldl_loadLine {p : Policy} {ls : List Str} :
    (ls.foldl Policy.loadLine p).default = ((ls.filterMap lineDefault).getLast?).or p.default :=
  foldl_last Policy.default (fun p raw => @Policy.default_loadLine _ p raw) ls p

omit [Casing] in
theorem Policy.not_has_initial (e : Entry) : ¬ Policy.initial.Has e := by
  rcases e with ⟨_ | _, _ | _ | _ | _ | _⟩ <;> simp [Policy.Has, Policy.initial]

/-- The loaded entries are exactly those the lines denote. -/
theorem Policy.has_load {text : Option Str} {e : Entry} :
    (Policy.load text).Has e ↔ ∃ l ∈ textLines text, lineEntry l = some e := by
  simp [Policy.load, Policy.has_foldl_loadLine, Policy.not_has_initial]

/-- The loaded default is the last valid one. -/
theorem Policy.default_load (text : Option Str) :
    (Policy.load text).default.getD .ask = lastDefault (textLines text) := by
  rw [Policy.load, Policy.default_foldl_loadLine, lastDefault]
  cases ((textLines text).filterMap lineDefault).getLast? <;> rfl

theorem Policy.covers_load {text : Option Str} {eff : Effect} {q : Query} :
    (Policy.load text).Covers eff q ↔ ∃ l ∈ textLines text, LineCovers eff l q := by
  constructor
  · rintro ⟨s, hs, hc⟩
    obtain ⟨l, hl, he⟩ := Policy.has_load.mp hs
    exact ⟨l, hl, s, he, hc⟩
  · rintro ⟨l, hl, s, he, hc⟩
    exact ⟨s, Policy.has_load.mpr ⟨l, hl, he⟩, hc⟩

/-- A query is settled by the lines that cover it. -/
theorem Policy.load_settles (text : Option Str) (q : Query) :
    Settles (∃ l ∈ textLines text, LineCovers .deny l q)
      (∃ l ∈ textLines text, LineCovers .allow l q) (lastDefault (textLines text))
      ((Policy.load text).decide q.exe q.dst q.host q.dport) := by
  rw [← Policy.covers_load, ← Policy.covers_load, ← Policy.default_load]
  exact Policy.decide_settles _ q

/-! ## order and repetition -/

/-- Only rule lines denote entries. -/
theorem isRuleLine_of_lineEntry {raw : Str} {e : Entry} (h : lineEntry raw = some e) :
    isRuleLine raw = true := by
  obtain ⟨⟨k, v⟩, hd, he⟩ := Option.bind_eq_some_iff.mp h
  cases k <;> simp_all [isRuleLine, Keyword.isRule, Keyword.denotes]

omit [Casing] in
/-- Only setting lines give a default. -/
theorem lineDefault_of_not_isSettingLine {raw : Str} (h : isSettingLine raw = false) :
    lineDefault raw = none := by
  unfold lineDefault
  split
  · rename_i v hd
    simp [isSettingLine, hd, Keyword.isSetting] at h
  · rfl

omit [Casing] in
/-- The default depends on the setting lines alone. -/
theorem lastDefault_filter (ls : List Str) :
    lastDefault (ls.filter isSettingLine) = lastDefault ls := by
  rw [lastDefault, lastDefault, List.filterMap_filter]
  congr 2
  apply List.filterMap_congr
  intro l _
  cases hl : isSettingLine l with
  | true => rfl
  | false => exact (lineDefault_of_not_isSettingLine hl).symm

/-- Files with the same rule lines, whatever their order and number, and the
same setting lines in the same order. -/
structure SameRules (ls ls' : List Str) : Prop where
  rules : ∀ l, isRuleLine l = true → (l ∈ ls ↔ l ∈ ls')
  settings : ls.filter isSettingLine = ls'.filter isSettingLine

theorem SameRules.lineCovers {ls ls' : List Str} (h : SameRules ls ls') {eff : Effect} {q : Query} :
    (∃ l ∈ ls, LineCovers eff l q) ↔ ∃ l ∈ ls', LineCovers eff l q := by
  constructor <;> rintro ⟨l, hl, s, he, hc⟩
  · exact ⟨l, (h.rules l (isRuleLine_of_lineEntry he)).mp hl, s, he, hc⟩
  · exact ⟨l, (h.rules l (isRuleLine_of_lineEntry he)).mpr hl, s, he, hc⟩

omit [Casing] in
/-- What a verdict is settled by determines it. -/
theorem Settles.unique {d a : Prop} {f v w : Verdict} (hv : Settles d a f v)
    (hw : Settles d a f w) : v = w := by
  by_cases hd : d
  · rw [hv.deny hd, hw.deny hd]
  · by_cases ha : a
    · rw [hv.allow hd ha, hw.allow hd ha]
    · rw [hv.default hd ha, hw.default hd ha]

/-- Files with the same rules decide alike. -/
theorem SameRules.decide {t t' : Option Str} (h : SameRules (textLines t) (textLines t'))
    (q : Query) : (Policy.load t).decide q.exe q.dst q.host q.dport =
      (Policy.load t').decide q.exe q.dst q.host q.dport := by
  have h₁ := Policy.load_settles t q
  have h₂ := Policy.load_settles t' q
  rw [h.lineCovers, h.lineCovers, ← lastDefault_filter, h.settings, lastDefault_filter] at h₁
  exact h₁.unique h₂

/-- **Meaning of a policy file.**  A covering deny line decides, else a
covering allow line, else the last valid default.  So lines added around a
deny never undo it, scoped lines need a known binary, and the order and number
of rule lines do not matter. -/
theorem policy_file_meaning :
    (∀ (text : Option Str) (q : Query),
      Settles (∃ l ∈ textLines text, LineCovers .deny l q)
        (∃ l ∈ textLines text, LineCovers .allow l q) (lastDefault (textLines text))
        ((Policy.load text).decide q.exe q.dst q.host q.dport)) ∧
    (∀ (t t' : Option Str) (q : Query), (textLines t).Sublist (textLines t') →
      (∃ l ∈ textLines t, LineCovers .deny l q) →
        (Policy.load t').decide q.exe q.dst q.host q.dport = .deny) ∧
    (∀ (raw : Str) (e : Entry) (q : Query), lineEntry raw = some e → e.scope.Scoped →
      q.exe = none → ¬ e.scope.Covers q) ∧
    (∀ (t t' : Option Str) (q : Query), SameRules (textLines t) (textLines t') →
      (Policy.load t).decide q.exe q.dst q.host q.dport =
        (Policy.load t').decide q.exe q.dst q.host q.dport) := by
  refine ⟨Policy.load_settles, ?_, ?_, ?_⟩
  · rintro t t' q hsub ⟨l, hl, hc⟩
    exact (Policy.load_settles t' q).deny ⟨l, hsub.subset hl, hc⟩
  · intro raw e q _ hscoped hexe
    exact hscoped.not_covers hexe
  · intro t t' q h
    exact h.decide q

end Pfsnitch
