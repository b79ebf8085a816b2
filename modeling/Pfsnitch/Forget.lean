import Pfsnitch.Policy.Sweep
import Pfsnitch.Policy.Normal

/-!
# Pfsnitch.Forget

`remove_app` and `clear_rules`.

The lines that they take for a binary's, or for rules, are read by `parse_line` and
`split_scoped`; what is in force is what `load` makes of them.  The two agree on every
line that has a value, so a binary is forgotten with all its rules and nothing else
(`removeApp_forgets`), and nothing but a rule for the empty path or the empty name can
outlive `clear_rules` (`clearRules_clears`).
-/

namespace Pfsnitch

open Lib

/-- The binary that a rule is about. -/
def Scope.binary : Scope → Option Str
  | .app exe | .hostFrom exe _ _ | .destFrom exe _ _ => some exe
  | .host .. | .dest .. => none

/-- A comment line. -/
def isComment (raw : Str) : Bool := lineBody raw = [] && raw.any (· == '#')

/-- The comment lines of a text, in order, without carriage returns at their ends. -/
def commentLines (text : Str) : List Str :=
  (lines text).filterMap fun raw =>
    if isComment raw then some (raw.rdropWhile (· == '\r')) else none

variable [Casing]

/-- The binary is forgotten: it has no rule and no pin, and everything else is as it was. -/
structure ForgetsApp (exe old new : Str) : Prop where
  rules : ∀ e, (Policy.load (some new)).Has e → e.scope.binary ≠ some exe
  pin : (Policy.load (some new)).expectedId exe = none
  decide : ∀ q : Query, q.exe ≠ some exe →
    (Policy.load (some new)).decide q.exe q.dst q.host q.dport =
      (Policy.load (some old)).decide q.exe q.dst q.host q.dport
  pins : ∀ exe', exe' ≠ exe →
    (Policy.load (some new)).expectedId exe' = (Policy.load (some old)).expectedId exe'
  settings : SameSettings (Policy.load (some new)) (Policy.load (some old))
  comments : commentLines new = commentLines old

/-- Everything is cleared: a query is answered by the default, there is no pin, and the
settings and comments are as they were. -/
structure Clears (old new : Str) : Prop where
  decide : ∀ q : Query, q.exe ≠ some [] → q.host ≠ some [] →
    (Policy.load (some new)).decide q.exe q.dst q.host q.dport =
      (Policy.load (some old)).default.getD .ask
  pins : ∀ exe, (Policy.load (some new)).expectedId exe = none
  settings : SameSettings (Policy.load (some new)) (Policy.load (some old))
  comments : commentLines new = commentLines old

variable {exe raw text : Str} {hit : Rule → Bool}

/-! ## comments -/

omit [Casing] in
theorem isComment_stripCr (raw : Str) : isComment (stripCr raw) = isComment raw := by
  have hany : (stripCr raw).any (· == '#') = raw.any (· == '#') := by
    obtain h | h := stripCr_cases raw
    · rw [h]
    · conv_rhs => rw [h, List.any_append]
      simp
  rw [isComment, isComment, lineBody_stripCr, hany]

omit [Casing] in
theorem rdropWhile_stripCr (raw : Str) :
    (stripCr raw).rdropWhile (· == '\r') = raw.rdropWhile (· == '\r') := by
  obtain h | h := stripCr_cases raw
  · rw [h]
  · conv_rhs => rw [h, List.rdropWhile_concat_pos _ _ _ (by simp)]

omit [Casing] in
/-- A removal keeps the comment lines. -/
theorem commentLines_sweepLeaves (hit : Rule → Bool) (text : Str) :
    commentLines (sweepLeaves hit text) = commentLines text := by
  refine filterMap_lines_sweepLeaves_of_not_hit (fun l => ?_) fun l hl => ?_
  · rw [isComment_stripCr, rdropWhile_stripCr]
  · rw [if_neg]
    intro hcomment
    have hbody : lineBody l = [] := by simpa using (Bool.and_eq_true_iff.mp hcomment).1
    rw [hitLine, parseLine_eq_none_iff.mpr (.inl hbody)] at hl
    cases hl

/-! ## one binary -/

omit [Casing] in
/-- The binary that a directive with its value is about. -/
def Keyword.binary (k : Keyword) (v : Str) : Option Str :=
  match k with
  | .allowApp | .denyApp => some v
  | .appId | .allowHostFrom | .denyHostFrom | .allowDestFrom | .denyDestFrom =>
    (splitScoped v).map (·.2)
  | _ => none

theorem Keyword.binary_of_denotes {k : Keyword} {v : Str} {e : Entry} (h : k.denotes v = some e) :
    e.scope.binary = k.binary v := by
  cases k <;> simp only [denotes, Option.map_eq_some_iff, Option.some.injEq, reduceCtorEq] at h
  case allowApp | denyApp | allowHost | denyHost => subst h; rfl
  case allowDest | denyDest =>
    obtain ⟨d, -, rfl⟩ := h
    rfl
  case allowHostFrom | denyHostFrom =>
    obtain ⟨r, hr, rfl⟩ := h
    obtain ⟨d, hd, rfl⟩ := Option.map_eq_some_iff.mp hr
    simp [binary, Scope.binary, hd]
  case allowDestFrom | denyDestFrom =>
    obtain ⟨r, hr, rfl⟩ := h
    obtain ⟨d, hd, hr⟩ := Option.bind_eq_some_iff.mp hr
    obtain ⟨a, -, rfl⟩ := Option.map_eq_some_iff.mp hr
    simp [binary, Scope.binary, hd]

omit [Casing] in
theorem Rule.belongsTo_eq {r : Rule} {k : Keyword} (h : r.kind = k.text) :
    r.belongsTo exe = (k.binary r.value == some exe) := by
  rw [belongsTo, h, Keyword.ofText_text]
  cases k <;> simp only [Keyword.binary] <;> try rfl
  all_goals cases splitScoped r.value <;> rfl

omit [Casing] in
/-- The tools and `load` agree on the binary that a line is about. -/
theorem hitLine_belongsTo {k : Keyword} {v : Str} (hexe : exe ≠ [])
    (hd : directive raw = some (k, v)) :
    hitLine (Rule.belongsTo exe) raw = true ↔ k.binary v = some exe := by
  by_cases hv : v = []
  · -- the tools skip the line, and it is about the empty path or no binary
    subst hv
    have hbinary : k.binary [] ≠ some exe := by
      have hnil : splitScoped [] = none := rfl
      cases k <;> simp [Keyword.binary, hnil, eq_comm, hexe]
    have hnone : hitLine (Rule.belongsTo exe) raw = false := by
      cases hr : parseLine raw with
      | none => rw [hitLine, hr, Option.any_none]
      | some r =>
          have hdr := directive_of_parseLine hr
          rw [hd] at hdr
          obtain ⟨k', -, hkv⟩ := Option.map_eq_some_iff.mp hdr.symm
          exact absurd (Prod.mk.inj hkv).2 (value_ne_nil_of_parseLine hr)
    rw [hnone]
    exact iff_of_false Bool.false_ne_true hbinary
  · obtain ⟨r, hr, hkind, rfl⟩ := parseLine_of_directive hd hv
    rw [hitLine, hr, Option.any_some, Rule.belongsTo_eq hkind, beq_iff_eq]

/-- The entries that are left are those of other binaries, or of none. -/
theorem has_forget (hexe : exe ≠ []) (text : Str) (e : Entry) :
    (Policy.load (some (sweepLeaves (Rule.belongsTo exe) text))).Has e ↔
      (Policy.load (some text)).Has e ∧ e.scope.binary ≠ some exe := by
  have hline {l : Str} (he : lineEntry l = some e) :
      hitLine (Rule.belongsTo exe) l = false ↔ e.scope.binary ≠ some exe := by
    obtain ⟨⟨k, v⟩, hd, hk⟩ := Option.bind_eq_some_iff.mp he
    rw [Keyword.binary_of_denotes hk, ← Bool.not_eq_true, hitLine_belongsTo hexe hd]
  rw [Policy.has_sweepLeaves, Policy.load_lines, Policy.has_ofLines]
  constructor
  · rintro ⟨l, hl, hhit, he⟩
    exact ⟨⟨l, hl, he⟩, (hline he).mp hhit⟩
  · rintro ⟨⟨l, hl, he⟩, hbinary⟩
    exact ⟨l, hl, (hline he).mpr hbinary, he⟩

/-- Only rules that cover a query decide it. -/
theorem decide_congr {p p' : Policy} {q : Query}
    (hhas : ∀ e : Entry, e.scope.Covers q → (p.Has e ↔ p'.Has e)) (hdefault : p.default = p'.default) :
    p.decide q.exe q.dst q.host q.dport = p'.decide q.exe q.dst q.host q.dport := by
  have hcovers (eff : Effect) : p.Covers eff q ↔ p'.Covers eff q := by
    constructor
    · rintro ⟨s, hs, hc⟩
      exact ⟨s, (hhas ⟨eff, s⟩ hc).mp hs, hc⟩
    · rintro ⟨s, hs, hc⟩
      exact ⟨s, (hhas ⟨eff, s⟩ hc).mpr hs, hc⟩
  have h := p.decide_settles q
  rw [hcovers, hcovers, hdefault] at h
  exact h.unique (p'.decide_settles q)

theorem Scope.binary_of_covers {s : Scope} {q : Query} (h : s.Covers q) (hs : s.binary = some exe) :
    q.exe = some exe := by
  cases s with
  | app | hostFrom | destFrom =>
      obtain rfl := Option.some.inj hs
      first
        | exact h
        | exact h.1
  | host | dest => cases hs

/-- Only an `app-id` line of the binary pins it. -/
theorem binary_of_linePin {x : Str} (h : linePin exe raw = some x) :
    ∃ v, directive raw = some (.appId, v) ∧ Keyword.appId.binary v = some exe := by
  unfold linePin at h
  split at h
  · rename_i v hd
    obtain ⟨r, hr, hexe⟩ := Option.bind_eq_some_iff.mp h
    refine ⟨v, hd, ?_⟩
    split at hexe
    · rename_i heq
      simp [Keyword.binary, hr, heq]
    · cases hexe
  · cases h

omit [Casing] in
theorem isSetting_of_belongsTo {r : Rule} {k : Keyword} (h : r.belongsTo exe = true)
    (hk : Keyword.ofText r.kind = some k) : k.isSetting = false := by
  rw [Rule.belongsTo_eq (Keyword.text_of_ofText hk).symm, beq_iff_eq] at h
  cases k with
  | default | prompt | mode | attribution => cases h
  | _ => rfl

/-- `remove_app` of a binary. -/
theorem removeApp_forgets (hexe : exe ≠ []) (text : Str) :
    ForgetsApp exe text (sweepLeaves (Rule.belongsTo exe) text) where
  rules e he := ((has_forget hexe text e).mp he).2
  pin := by
    rw [Policy.expectedId, Policy.load_lines, Policy.appId_ofLines,
      filterMap_lines_sweepLeaves (linePin_stripCr exe), List.getLast?_eq_none_iff,
      List.filterMap_eq_nil_iff]
    intro l hl
    have hhit : hitLine (Rule.belongsTo exe) l = false := by simpa using (List.mem_filter.mp hl).2
    cases hpin : linePin exe l with
    | none => rfl
    | some x =>
        obtain ⟨v, hd, hbinary⟩ := binary_of_linePin hpin
        rw [(hitLine_belongsTo hexe hd).mpr hbinary] at hhit
        cases hhit
  decide q hq := by
    refine decide_congr (fun e hc => ?_)
      (sameSettings_sweepLeaves (fun r hr k hk => isSetting_of_belongsTo hr hk) text).default
    rw [has_forget hexe, and_iff_left]
    exact fun hbinary => hq (Scope.binary_of_covers hc hbinary)
  pins exe' hne := by
    rw [Policy.expectedId, Policy.expectedId, Policy.load_lines, Policy.load_lines,
      Policy.appId_ofLines, Policy.appId_ofLines,
      filterMap_lines_sweepLeaves_of_not_hit (linePin_stripCr exe')]
    intro l hhit
    cases hpin : linePin exe' l with
    | none => rfl
    | some x =>
        obtain ⟨v, hd, hbinary⟩ := binary_of_linePin hpin
        have hbinary' := (hitLine_belongsTo hexe hd).mp hhit
        rw [hbinary] at hbinary'
        exact absurd (Option.some.inj hbinary') hne
  settings := sameSettings_sweepLeaves (fun r hr k hk => isSetting_of_belongsTo hr hk) text
  comments := commentLines_sweepLeaves _ _

/-! ## every rule -/

omit [Casing] in
theorem Rule.clears_eq {r : Rule} {k : Keyword} (h : r.kind = k.text) :
    r.clears = (k.isRule || k == .appId) := by
  rw [clears, h]
  cases k <;> decide

/-- All that can outlive `clear_rules` is a rule for the empty path or the empty name. -/
theorem has_clear {e : Entry} (he : (Policy.load (some (sweepLeaves Rule.clears text))).Has e) :
    e.scope = .app [] ∨ e.scope = .host [] none := by
  obtain ⟨l, -, hhit, he⟩ := Policy.has_sweepLeaves.mp he
  obtain ⟨⟨k, v⟩, hd, hk⟩ := Option.bind_eq_some_iff.mp he
  have hrule : k.isRule = true := by
    have h := isRuleLine_of_lineEntry he
    rwa [isRuleLine, hd, Option.any_some] at h
  have hv : v = [] := by
    by_contra hv
    obtain ⟨r, hr, hkind, -⟩ := parseLine_of_directive hd hv
    rw [hitLine, hr, Option.any_some, Rule.clears_eq hkind, hrule] at hhit
    cases hhit
  subst hv
  exact scope_of_bare hk

theorem not_hostCovers_nil [LawfulCasing] {host : Option Str} (h : host ≠ some []) :
    ¬ HostCovers [] host := by
  rintro ⟨x, rfl, hx⟩
  have hne : [] ≠ lower x := fun hnil =>
    LawfulCasing.lower_ne_nil x (fun hx => h (by rw [hx])) hnil.symm
  rw [patternMatches, if_neg hne] at hx
  exact Bool.false_ne_true hx

/-- `clear_rules`. -/
theorem clearRules_clears [LawfulCasing] (text : Str) :
    Clears text (sweepLeaves Rule.clears text) := by
  have hsettings : SameSettings (Policy.load (some (sweepLeaves Rule.clears text)))
      (Policy.load (some text)) := by
    refine sameSettings_sweepLeaves (fun r hr k hk => ?_) text
    rw [Rule.clears_eq (Keyword.text_of_ofText hk).symm] at hr
    cases k with
    | default | prompt | mode | attribution => cases hr
    | _ => rfl
  refine ⟨fun q hexe hhost => ?_, fun exe => ?_, hsettings, commentLines_sweepLeaves _ _⟩
  · have hcovers (eff : Effect) :
        ¬ (Policy.load (some (sweepLeaves Rule.clears text))).Covers eff q := by
      rintro ⟨s, hs, hc⟩
      obtain h | h := has_clear hs
      · rw [show s = .app [] from h] at hc
        exact hexe hc
      · rw [show s = .host [] none from h] at hc
        exact not_hostCovers_nil hhost hc.1
    rw [← hsettings.default]
    exact (Policy.decide_settles _ q).default (hcovers _) (hcovers _)
  · rw [Policy.expectedId, Policy.load_lines, Policy.appId_ofLines,
      filterMap_lines_sweepLeaves (linePin_stripCr exe), List.getLast?_eq_none_iff,
      List.filterMap_eq_nil_iff]
    intro l hl
    have hhit : hitLine Rule.clears l = false := by simpa using (List.mem_filter.mp hl).2
    cases hpin : linePin exe l with
    | none => rfl
    | some x =>
        obtain ⟨v, hd, hbinary⟩ := binary_of_linePin hpin
        have hv : v ≠ [] := by
          rintro rfl
          cases hbinary
        obtain ⟨r, hr, hkind, -⟩ := parseLine_of_directive hd hv
        rw [hitLine, hr, Option.any_some, Rule.clears_eq hkind] at hhit
        cases hhit

/-- **Forgetting a binary** forgets that binary and nothing else, and **clearing** clears
everything, on every text of the policy file. -/
theorem forget_and_clear [LawfulCasing] (text exe : Str) (hexe : exe ≠ []) :
    (∃ n new, (Edit.removeApp exe).run (some text) = (.removed n, some new) ∧
      ForgetsApp exe text new) ∧
    ∃ n new, Edit.clearRules.run (some text) = (.removed n, some new) ∧ Clears text new :=
  ⟨⟨_, _, rfl, removeApp_forgets hexe text⟩, ⟨_, _, rfl, clearRules_clears text⟩⟩

omit [Casing] in
/-- Two binaries, one of them with a blank in its path. -/
theorem forget_and_clear_two :
    letI := asciiCasing
    let text := "deny-app /a\nallow-host-from example.com:443 /b c\n# both\n".toList
    (∃ n new, (Edit.removeApp "/b c".toList).run (some text) = (.removed n, some new) ∧
      ForgetsApp "/b c".toList text new) ∧
    ∃ n new, Edit.clearRules.run (some text) = (.removed n, some new) ∧ Clears text new := by
  let _ := asciiCasing
  exact forget_and_clear _ "/b c".toList (by decide)

end Pfsnitch
