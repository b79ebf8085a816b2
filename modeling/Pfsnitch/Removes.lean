import Pfsnitch.Policy.Normal
import Pfsnitch.Policy.Sweep

/-!
# Pfsnitch.Removes

`remove_rule`.

It removes the lines that are written like the rule, and writes the others out again.
That is the rule and nothing else, exactly when no line is written like the rule without
denoting it, none denotes it without being a rule to the tools (a bare `allow-host`), and
no other line ends in a carriage return and a newline (`remove_rule_iff`).
-/

namespace Pfsnitch

open Lib

variable [Casing]

/-- One rule's worth has gone: its entry, in every spelling, and nothing else; the other
lines are as they were, as many as are counted have gone, and a second call finds nothing
and does not write. -/
structure RemovesOne (r : Rule) (old new : Str) (n : Nat) : Prop where
  entries : ∀ e, (Policy.load (some new)).Has e ↔
    (Policy.load (some old)).Has e ∧ r.entry ≠ some e
  spellings : ∀ r' ∈ rules (some new), r.alike r' = false
  settings : SameSettings (Policy.load (some new)) (Policy.load (some old))
  pins : (Policy.load (some new)).appId = (Policy.load (some old)).appId
  lines : pieces '\n' new = (pieces '\n' old).filter (!hitLine r.alike ·)
  count : (pieces '\n' old).length = (pieces '\n' new).length + n
  again : (Edit.removeRule r.kind r.value).rewrite new = (none, .removed 0)

/-- A file in which the rule can be removed: what is written like it denotes it, what the
tools skip does not denote it, and no other line ends in a carriage return and a newline. -/
structure Removable (r : Rule) (text : Str) : Prop where
  alike : ∀ r' ∈ parsed (some text), r.alike r' = true → ∀ e, r'.entry = some e → r.entry = some e
  bare : ∀ l ∈ lines text, parseLine l = none → ∀ e, lineEntry l = some e → r.entry ≠ some e
  newline : ∀ l ∈ endedPieces '\n' text, hitLine r.alike l = false → stripCr l = l

variable {r : Rule} {text raw : Str} {e : Entry}

theorem run_removeRule (r : Rule) (text : Str) : (Edit.removeRule r.kind r.value).run (some text) =
    (.removed ((lines text).countP (hitLine r.alike)), some (sweepLeaves r.alike text)) := by
  have hcount : (sweep r.alike text).2 = (lines text).countP (hitLine r.alike) := by
    rw [sweep_hitLine]
  rw [← hcount]
  rfl

/-- A rule of the file is hit. -/
theorem countP_alike_pos (h : r ∈ rules (some text)) :
    0 < (lines text).countP (hitLine r.alike) := by
  obtain ⟨raw, hraw, hparse⟩ := List.mem_filterMap.mp (List.mem_filter.mp h).1
  refine List.countP_pos_iff.mpr ⟨raw, hraw, ?_⟩
  rw [hitLine, hparse, Option.any_some, Rule.alike]
  simp

/-- What a line denotes that is written like the rule. -/
theorem entry_of_hitLine (halike : ∀ r' ∈ parsed (some text), r.alike r' = true →
    ∀ e, r'.entry = some e → r.entry = some e) (hraw : raw ∈ lines text)
    (hhit : hitLine r.alike raw = true) (he : lineEntry raw = some e) : r.entry = some e := by
  cases hparse : parseLine raw with
  | none =>
      rw [hitLine, hparse] at hhit
      cases hhit
  | some r' =>
      rw [hitLine, hparse, Option.any_some] at hhit
      rw [lineEntry_of_parseLine hparse] at he
      exact halike r' (List.mem_filterMap.mpr ⟨raw, hraw, hparse⟩) hhit e he

/-- Rules are no settings and no pins. -/
theorem isRule_of_alike (hkind : r.kind ∈ KINDS) {r' : Rule} (h : r.alike r' = true) {k : Keyword}
    (hk : Keyword.ofText r'.kind = some k) : k.isRule = true := by
  have hsame : r'.kind = r.kind := by
    simp only [Rule.alike, Bool.and_eq_true, beq_iff_eq] at h
    exact h.1
  obtain ⟨k', hk', htext⟩ := List.mem_map.mp hkind
  rw [hsame, ← htext, Keyword.ofText_text, Option.some.injEq] at hk
  subst hk
  clear htext
  revert k'
  decide

theorem linePin_of_alike (hkind : r.kind ∈ KINDS) (exe : Str) (h : hitLine r.alike raw = true) :
    linePin exe raw = none := by
  cases hparse : parseLine raw with
  | none =>
      rw [hitLine, hparse] at h
      cases h
  | some r' =>
      rw [hitLine, hparse, Option.any_some] at h
      rw [linePin, directive_of_parseLine hparse]
      cases hk : Keyword.ofText r'.kind with
      | none => rfl
      | some k =>
          have hrule := isRule_of_alike hkind h hk
          cases k with
          | appId => cases hrule
          | _ => rfl

/-! ## the lines that are left -/

/-- An entry is kept when it is not the rule's, and the rule's is gone. -/
theorem has_sweepLeaves_iff (h : Removable r text) (e : Entry) :
    (Policy.load (some (sweepLeaves r.alike text))).Has e ↔
      (Policy.load (some text)).Has e ∧ r.entry ≠ some e := by
  rw [Policy.has_sweepLeaves, Policy.load_lines, Policy.has_ofLines]
  constructor
  · rintro ⟨l, hl, hhit, he⟩
    refine ⟨⟨l, hl, he⟩, fun hentry => ?_⟩
    cases hparse : parseLine l with
    | none => exact h.bare l hl hparse e he hentry
    | some r' =>
        rw [lineEntry_of_parseLine hparse] at he
        rw [hitLine, hparse, Option.any_some, Rule.alike_of_entry hentry he] at hhit
        cases hhit
  · rintro ⟨⟨l, hl, he⟩, hentry⟩
    refine ⟨l, hl, ?_, he⟩
    cases hhit : hitLine r.alike l with
    | true => exact absurd (entry_of_hitLine h.alike hl hhit he) hentry
    | false => rfl

/-- What is left has no line that is written like the rule. -/
theorem hitLine_sweepLeaves (hl : raw ∈ lines (sweepLeaves r.alike text)) :
    hitLine r.alike raw = false := by
  have hmem : hitLine r.alike raw ∈
      (lines (sweepLeaves r.alike text)).map (hitLine r.alike) := List.mem_map_of_mem hl
  rw [map_lines_sweepLeaves fun l => hitLine_stripCr l] at hmem
  obtain ⟨l, hl', heq⟩ := List.mem_map.mp hmem
  rw [← heq]
  simpa using (List.mem_filter.mp hl').2

theorem rewrite_sweepLeaves (r : Rule) (text : Str) :
    (Edit.removeRule r.kind r.value).rewrite (sweepLeaves r.alike text) = (none, .removed 0) := by
  have hzero : (lines (sweepLeaves r.alike text)).countP (hitLine r.alike) = 0 :=
    List.countP_eq_zero.mpr fun l hl => by simp [hitLine_sweepLeaves hl]
  have hsweep : (sweep r.alike (sweepLeaves r.alike text)).2 = 0 := by
    rw [sweep_hitLine, hzero]
  have hswept : (Edit.removeRule r.kind r.value).rewrite (sweepLeaves r.alike text) =
      Edit.swept (sweep r.alike (sweepLeaves r.alike text)) := rfl
  rw [hswept, Edit.swept, hsweep]
  rfl

theorem rules_sweepLeaves {r' : Rule} (h : r' ∈ rules (some (sweepLeaves r.alike text))) :
    r.alike r' = false := by
  obtain ⟨raw, hraw, hparse⟩ := List.mem_filterMap.mp (List.mem_filter.mp h).1
  have hhit := hitLine_sweepLeaves hraw
  rwa [hitLine, hparse, Option.any_some] at hhit

/-- The lines of the file are those that are left, and those that are counted. -/
theorem length_pieces_sweepLeaves (h : r ∈ rules (some text)) :
    (pieces '\n' text).length = (pieces '\n' (sweepLeaves r.alike text)).length +
      (lines text).countP (hitLine r.alike) := by
  rw [pieces_sweepLeaves (countP_alike_pos h), ← length_lines, ← List.countP_eq_length_filter,
    Nat.add_comm]
  rw [List.length_eq_countP_add_countP (p := hitLine r.alike)]
  simp

/-! ## exactly one rule -/

/-- An empty host pattern without a port is the only one that is written as nothing. -/
theorem normaliseHost_eq_nil {v : Str} (h : normaliseHost v = []) : parseHost v = ([], none) := by
  have hjoin : joinTarget (parseHost v).1 (parseHost v).2 = [] := h
  generalize parseHost v = t at hjoin ⊢
  obtain ⟨host, port⟩ := t
  cases port with
  | none => exact congrArg (·, none) hjoin
  | some p => exact absurd hjoin (joinTarget_ne_nil host p)

/-- A rule that is written like one which denotes what a bare directive denotes, denotes it
too. -/
theorem entry_of_bare {r' : Rule} {k : Keyword} (halike : r.alike r' = true)
    (hentry : r'.entry = some e) (hvalue : r'.value ≠ []) (hbare : k.denotes [] = some e) :
    r.entry = some e := by
  obtain ⟨k', hk', hd⟩ := Option.bind_eq_some_iff.mp hentry
  obtain rfl := (keyword_of_denotes hd).symm.trans (keyword_of_denotes hbare)
  simp only [Rule.alike, Bool.and_eq_true, beq_iff_eq] at halike
  obtain ⟨hkind, hnorm⟩ := halike
  have htext := Keyword.text_of_ofText hk'
  rw [← htext, normalise_of_denotes hd] at hnorm
  rw [Rule.entry, ← hkind, hk', Option.bind_some]
  obtain ⟨eff, scope⟩ := e
  obtain rfl | rfl : scope = .app [] ∨ scope = .host [] none := scope_of_bare hbare
  · cases eff
    all_goals
      obtain rfl := keyword_of_denotes hd
      exact absurd (by simpa [Entry.keyword, Keyword.denotes] using hd) hvalue
  · cases eff
    all_goals
      obtain rfl := keyword_of_denotes hd
      have hhost : parseHost r.value = ([], none) := by
        rw [← hkind, ← htext, Entry.keyword, normalise, Keyword.ofText_text] at hnorm
        exact normaliseHost_eq_nil hnorm.symm
      simp [Entry.keyword, Keyword.denotes, hhost]

/-- **Removing a rule** removes exactly that rule, in exactly the files in which it can be
removed. -/
theorem remove_rule_iff (h : r ∈ rules (some text)) :
    (∃ n new, (Edit.removeRule r.kind r.value).run (some text) = (.removed n, some new) ∧
      RemovesOne r text new n) ↔ Removable r text := by
  have hpos := countP_alike_pos h
  have hkind : r.kind ∈ KINDS := by simpa using (List.mem_filter.mp h).2
  have hlines := @filter_lines_eq_iff (!hitLine r.alike ·) (fun l => by rw [hitLine_stripCr]) text
  simp only [Bool.not_eq_true'] at hlines
  rw [run_removeRule]
  constructor
  · rintro ⟨n, new, hrun, hone⟩
    obtain rfl : sweepLeaves r.alike text = new := Option.some.inj (Prod.mk.inj hrun).2
    have hbare : ∀ l ∈ lines text, parseLine l = none → ∀ e, lineEntry l = some e →
        r.entry ≠ some e := by
      intro l hl hparse e he
      refine ((hone.entries e).mp (Policy.has_sweepLeaves.mpr ⟨l, hl, ?_, he⟩)).2
      rw [hitLine, hparse, Option.any_none]
    refine ⟨fun r' hr' halike e he => ?_, hbare, ?_⟩
    · by_contra hentry
      obtain ⟨raw, hraw, hparse⟩ := List.mem_filterMap.mp hr'
      have hold : (Policy.load (some text)).Has e := by
        rw [Policy.load_lines, Policy.has_ofLines]
        exact ⟨raw, hraw, (lineEntry_of_parseLine hparse).trans he⟩
      -- a line that is left denotes the entry: it is written like the rule, or it is bare
      obtain ⟨l, hl, hhit, hle⟩ := Policy.has_sweepLeaves.mp ((hone.entries e).mpr ⟨hold, hentry⟩)
      cases hl' : parseLine l with
      | none =>
          obtain ⟨⟨k, v⟩, hd, hk⟩ := Option.bind_eq_some_iff.mp hle
          obtain rfl := value_of_parseLine_none hl' hd
          exact hentry (entry_of_bare halike he (value_ne_nil_of_parseLine hparse) hk)
      | some r'' =>
          rw [lineEntry_of_parseLine hl'] at hle
          rw [hitLine, hl', Option.any_some,
            Rule.alike_trans halike (Rule.alike_of_entry he hle)] at hhit
          cases hhit
    · rw [← hlines, ← hone.lines, pieces_sweepLeaves hpos]
  · intro hrem
    refine ⟨_, _, rfl, has_sweepLeaves_iff hrem, fun r' hr' => rules_sweepLeaves hr', ?_, ?_, ?_,
      length_pieces_sweepLeaves h, rewrite_sweepLeaves r text⟩
    · refine sameSettings_sweepLeaves (fun r' halike k hk => ?_) text
      have hrule := isRule_of_alike hkind halike hk
      cases k with
      | default | prompt | mode | attribution => cases hrule
      | _ => rfl
    · funext exe
      rw [Policy.load_lines, Policy.load_lines, Policy.appId_ofLines, Policy.appId_ofLines,
        filterMap_lines_sweepLeaves_of_not_hit (linePin_stripCr exe)
          fun l hl => linePin_of_alike hkind exe hl]
    · rw [pieces_sweepLeaves hpos]
      exact hlines.mpr hrem.newline

omit [Casing] in
/-- A host in capitals, between a comment and a setting. -/
theorem remove_rule_host :
    letI := asciiCasing
    let text := "# note\ndeny-host Example.COM:443\ndefault deny\n".toList
    let r : Rule := ⟨Keyword.denyHost.text, "Example.COM:443".toList, none⟩
    ∃ n new, (Edit.removeRule r.kind r.value).run (some text) = (.removed n, some new) ∧
      RemovesOne r text new n := by
  let _ := asciiCasing
  intro text r
  have halike : ∀ r' ∈ parsed (some text), r.alike r' = true → r'.entry = r.entry := by
    decide +kernel
  have hbare : ∀ l ∈ lines text, parseLine l = none → lineEntry l = none := by decide +kernel
  refine (remove_rule_iff (by decide +kernel)).mpr
    ⟨fun r' hr' h e he => (halike r' hr' h).symm.trans he, fun l hl h e he => ?_, by decide +kernel⟩
  rw [hbare l hl h] at he
  cases he

omit [Casing] in
/-- `[a:5]` is a host of that name and `a:5` is a port of the host `a`: removing one removes
both.  And with carriage returns, the lines that are kept lose them. -/
theorem remove_rule_takes_two :
    letI := asciiCasing
    (¬ ∀ (r : Rule) (text : Str), r ∈ rules (some text) →
      ∃ n new, (Edit.removeRule r.kind r.value).run (some text) = (.removed n, some new) ∧
        RemovesOne r text new n) ∧
    (Edit.removeRule Keyword.denyHost.text "a:5".toList).run
      (some "deny-host [a:5]\ndeny-host a:5\n".toList) = (.removed 2, some []) ∧
    (Edit.removeRule Keyword.denyApp.text "/a".toList).run
      (some "deny-app /a\r\n# note\r\n".toList) = (.removed 1, some "# note\n".toList) := by
  let _ := asciiCasing
  refine ⟨fun h => ?_, by decide +kernel, by decide +kernel⟩
  obtain ⟨n, new, hrun, hone⟩ := h ⟨Keyword.denyHost.text, "a:5".toList, none⟩
    "deny-host [a:5]\ndeny-host a:5\n".toList (by decide +kernel)
  have hnew : (Edit.removeRule Keyword.denyHost.text "a:5".toList).run
      (some "deny-host [a:5]\ndeny-host a:5\n".toList) = (.removed 2, some []) := by decide +kernel
  obtain rfl := Option.some.inj (Prod.mk.inj (hnew.symm.trans hrun)).2
  have hold : ("a:5".toList, none) ∈
      (Policy.load (some "deny-host [a:5]\ndeny-host a:5\n".toList)).denyHost := by decide +kernel
  have hgone : ("a:5".toList, (none : Option UInt16)) ∉ (Policy.load (some [])).denyHost := by
    decide +kernel
  exact hgone ((hone.entries ⟨.deny, .host "a:5".toList none⟩).mpr ⟨hold, by decide +kernel⟩)

end Pfsnitch
