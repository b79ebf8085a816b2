import Pfsnitch.Policy.Normal
import Pfsnitch.Appends

/-!
# Pfsnitch.Adds

`add_rule`.

The line that is written carries the normal form of the value and, as a comment, the
note.  What the call is worth depends on whether that line is read back as what was
given: not if the value has a `#` or a newline, blanks at its ends that `load` trims, or
brackets around a host that is no IPv6 address.  A value that is read back is added
exactly once, to every file that is text and has no other rule that is written like it
(`add_rule_once`).
-/

namespace Pfsnitch

open Lib

variable [Casing]

/-- The raw line of a rule. -/
def kindLine (kind value : Str) : Str := kind ++ ' ' :: value

/-- `add_rule` on the file as it is stored: what it returns, if nothing fails, and the
file it leaves. -/
def storedAdd (kind value : Str) (note : Option Str) (w : WriteResult)
    (file : Option (List UInt8)) : Option Returned × Option (List UInt8) :=
  match (Edit.addRule kind value note).append file, w with
  | (.added true, _), .failed left => (none, left)
  | (ret, file'), _ => (some ret, file')

/-- The rule is added once: exactly its entry comes to the policy, or was in force already;
a second call with this spelling or the other one finds it; and an error changes nothing. -/
structure AddsOnce (kind value value' : Str) (note : Option Str) (w : WriteResult)
    (file : Option (List UInt8)) : Prop where
  added : (storedAdd kind value note w file).1 = some (.added true) →
    ∃ e, lineEntry (kindLine kind value) = some e ∧
      Policy.loadFile (storedAdd kind value note w file).2 = (Policy.loadFile file).insert e
  present : (storedAdd kind value note w file).1 = some (.added false) →
    ∃ e, lineEntry (kindLine kind value) = some e ∧ (Policy.loadFile file).Has e
  again : ∀ b, (storedAdd kind value note w file).1 = some (.added b) →
    ∀ v, v = value ∨ v = value' → addError kind v = none →
      ∀ e, lineEntry (kindLine kind value) = some e → lineEntry (kindLine kind v) = some e →
        ∀ note' w', storedAdd kind v note' w' (storedAdd kind value note w file).2 =
          (some (.added false), (storedAdd kind value note w file).2)
  error : (∀ b, (storedAdd kind value note w file).1 ≠ some (.added b)) →
    (storedAdd kind value note w file).2 = file

/-- The line with the normal form is read back as a rule that is written alike and denotes
what the line with the value denotes. -/
def ReadsBack (kind value : Str) : Prop :=
  '\n' ∉ normalise kind value ∧ ∃ r e, parseLine (kindLine kind (normalise kind value)) = some r ∧
    r.kind = kind ∧ normalise kind r.value = normalise kind value ∧ r.entry = some e ∧
      lineEntry (kindLine kind value) = some e

/-- The value is read back, and so is the other spelling, if it denotes the same entry. -/
def Carried (kind value value' : Str) : Prop :=
  addError kind value = none → ReadsBack kind value ∧
    (addError kind value' = none →
      ∀ e, lineEntry (kindLine kind value) = some e → lineEntry (kindLine kind value') = some e →
        ReadsBack kind value')

omit [Casing] in
/-- The lines that a note makes after the first. -/
def noteLines : Option Str → List Str
  | some n => (lines (n ++ ['\n'])).tail
  | none => []

/-- A file that suits the call.  If a rule of it is written like the new one, some rule of
it denotes the entry; otherwise the file is text and the further lines of the note say
nothing new, or the write fails and leaves the file. -/
def Suits (kind value : Str) (note : Option Str) (w : WriteResult)
    (file : Option (List UInt8)) : Prop :=
  addError kind value = none → ∀ e, lineEntry (kindLine kind value) = some e →
    if hasRule kind value (readToString file) then
      ∃ r ∈ rules (readToString file), r.entry = some e
    else
      match w with
      | .failed left => left = file
      | .written => (decodeUtf8 (file.getD [])).isSome ∧
        (noteLines note).foldl Policy.loadLine ((Policy.loadFile file).insert e) =
          (Policy.loadFile file).insert e

variable {kind value value' v raw : Str} {note : Option Str} {w : WriteResult}
  {file : Option (List UInt8)} {r : Rule} {e : Entry}

/-! ## the line that is written -/

omit [Casing] in
/-- Nothing is read in a comment. -/
theorem lineBody_comment (s t : Str) : lineBody (s ++ "\t# ".toList ++ t) = lineBody s := by
  have hshape : s ++ "\t# ".toList ++ t = (s ++ ['\t']) ++ '#' :: (' ' :: t) := by simp
  rw [lineBody, lineBody, hshape]
  by_cases hmem : '#' ∈ s
  · obtain ⟨a, b, rfl, ha⟩ := List.eq_append_cons_of_mem hmem
    have hfree : ∀ x ∈ a, (x == '#') = false := fun x hx => by
      simpa using fun h : x = '#' => ha (h ▸ hx)
    have hrest : (a ++ '#' :: b ++ ['\t']) ++ '#' :: (' ' :: t) =
        a ++ '#' :: (b ++ ['\t'] ++ '#' :: (' ' :: t)) := by simp
    rw [hrest, splitFirst_append hfree (by decide), splitFirst_append hfree (by decide)]
  · have hfree : ∀ x ∈ s, (x == '#') = false := fun x hx => by
      simpa using fun h : x = '#' => hmem (h ▸ hx)
    have hfree' : ∀ x ∈ s ++ ['\t'], (x == '#') = false := by
      intro x hx
      obtain hx | hx := List.mem_append.mp hx
      · exact hfree x hx
      · rw [List.mem_singleton.mp hx]
        decide
    rw [splitFirst_append hfree' (by decide), splitFirst_of_forall_not hfree]
    exact trim_concat (by decide) s

omit [Casing] in
/-- Lines with the same body give the same rule, but for its comment. -/
theorem parseLine_of_lineBody {s t : Str} (h : lineBody s = lineBody t) (hr : parseLine t = some r) :
    ∃ c, parseLine s = some { r with comment := c } := by
  obtain ⟨hne, hv, rfl⟩ := parseLine_eq_some_iff.mp hr
  rw [← h] at hne hv
  exact ⟨_, parseLine_eq_some_iff.mpr ⟨hne, hv, by rw [h]⟩⟩

/-- The first line that is written reads like the line of the normal form; the others are
those of the note. -/
theorem lines_addLine (h : '\n' ∉ kindLine kind (normalise kind value)) (note : Option Str) :
    ∃ l, lines (addLine kind value note ++ ['\n']) = l :: noteLines note ∧
      lineBody l = lineBody (kindLine kind (normalise kind value)) := by
  cases note with
  | none =>
      refine ⟨stripCr (kindLine kind (normalise kind value)), ?_, lineBody_stripCr _⟩
      have hline := lines_append_newline h []
      rw [lines_nil] at hline
      rw [addLine, List.append_nil]
      exact hline
  | some n =>
      have hshape : addLine kind value (some n) ++ ['\n'] =
          kindLine kind (normalise kind value) ++ "\t# ".toList ++ (n ++ ['\n']) := by
        simp [addLine, kindLine]
      have hfree {f : Str} (hf : '\n' ∉ f) :
          '\n' ∉ kindLine kind (normalise kind value) ++ "\t# ".toList ++ f := by
        simp [h, hf]
      have hcut : ∃ f s, '\n' ∉ f ∧ n ++ ['\n'] = f ++ '\n' :: s := by
        obtain ⟨f, s, hs, hf⟩ := List.eq_append_cons_of_mem (show '\n' ∈ n ++ ['\n'] by simp)
        exact ⟨f, s, hf, hs⟩
      obtain ⟨f, s, hf, hs⟩ := hcut
      refine ⟨stripCr (kindLine kind (normalise kind value) ++ "\t# ".toList ++ f), ?_, ?_⟩
      · rw [hshape, noteLines, hs, lines_append_newline hf, List.tail_cons, ← List.append_assoc,
          lines_append_newline (hfree hf)]
      · rw [lineBody_stripCr, lineBody_comment]

/-! ## what the call does -/

theorem storedAdd_invalid {er : InvalidInput} (h : addError kind value = some er) :
    storedAdd kind value note w file = (some (.invalid er), file) := by
  simp [storedAdd, Edit.append, Edit.run, Edit.line, h]

theorem storedAdd_present (h : addError kind value = none)
    (hdup : hasRule kind value (readToString file) = true) :
    storedAdd kind value note w file = (some (.added false), file) := by
  simp [storedAdd, Edit.append, Edit.run, Edit.line, h, hdup]

theorem storedAdd_written (h : addError kind value = none)
    (hdup : hasRule kind value (readToString file) = false) :
    storedAdd kind value note .written file = (some (.added true),
      some (file.getD [] ++ utf8Bytes (addLine kind value note ++ ['\n']))) := by
  simp [storedAdd, Edit.append, Edit.run, Edit.line, h, hdup]

theorem storedAdd_failed {left : Option (List UInt8)} (h : addError kind value = none)
    (hdup : hasRule kind value (readToString file) = false) :
    storedAdd kind value note (.failed left) file = (none, left) := by
  simp [storedAdd, Edit.append, Edit.run, Edit.line, h, hdup]

omit [Casing] in
theorem kind_mem_of_addError (h : addError kind value = none) : kind ∈ KINDS := by
  by_contra hkind
  simp [addError, hkind] at h

theorem hasRule_iff {text : Option Str} : hasRule kind v text = true ↔
    ∃ r ∈ rules text, r.kind = kind ∧ normalise kind r.value = normalise kind v := by
  simp only [hasRule, List.any_eq_true, Bool.and_eq_true, beq_iff_eq]
  constructor
  · rintro ⟨r, hr, rfl, hnorm⟩
    exact ⟨r, hr, rfl, hnorm⟩
  · rintro ⟨r, hr, rfl, hnorm⟩
    exact ⟨r, hr, rfl, hnorm⟩

omit [Casing] in
theorem newline_not_mem_kindLine (hkind : kind ∈ KINDS) (h : '\n' ∉ v) : '\n' ∉ kindLine kind v := by
  have hkinds : ∀ k ∈ KINDS, '\n' ∉ k := by decide
  rw [kindLine, List.mem_append, List.mem_cons]
  rintro (h' | h' | h')
  · exact hkinds kind hkind h'
  · exact absurd h' (by decide)
  · exact h h'

/-- Spellings of one entry that are read back are written alike. -/
theorem ReadsBack.normalise_eq (h : ReadsBack kind value) (h' : ReadsBack kind v)
    (he : lineEntry (kindLine kind value) = some e) (he' : lineEntry (kindLine kind v) = some e) :
    normalise kind v = normalise kind value := by
  obtain ⟨-, r, f, -, hkind, hnorm, hf, hf'⟩ := h
  obtain ⟨-, r', f', -, hkind', hnorm', hg, hg'⟩ := h'
  obtain rfl := Option.some.inj (he.symm.trans hf')
  obtain rfl := Option.some.inj (he'.symm.trans hg')
  have halike := Rule.alike_of_entry hf hg
  simp only [Rule.alike, hkind, hkind', Bool.and_eq_true, beq_iff_eq, true_and] at halike
  exact hnorm'.symm.trans (halike.trans hnorm)

theorem Policy.loadLine_of_lineEntry {p : Policy} (h : lineEntry raw = some e) :
    p.loadLine raw = p.insert e := by
  obtain ⟨⟨k, v⟩, hd, hk⟩ := Option.bind_eq_some_iff.mp h
  rw [loadLine, hd]
  exact apply_of_denotes hk

/-- A rule whose value is read back is no bare directive. -/
theorem ReadsBack.not_bare {k : Keyword} (h : ReadsBack kind value)
    (he : lineEntry (kindLine kind value) = some e) : k.denotes [] ≠ some e := by
  intro hbare
  obtain ⟨-, r, f, hparse, hkind, hnorm, hf, hf'⟩ := h
  obtain rfl := Option.some.inj (he.symm.trans hf')
  obtain ⟨k', hk', hd⟩ := Option.bind_eq_some_iff.mp hf
  obtain rfl := (keyword_of_denotes hd).symm.trans (keyword_of_denotes hbare)
  have htext := Keyword.text_of_ofText hk'
  -- it is written as nothing, and the tools do not read a line without a value
  have hnil : normalise kind value = [] := by
    rw [← hnorm, ← hkind, ← htext, normalise_of_denotes hd]
    obtain h | h := scope_of_bare hbare <;> rw [h] <;> rfl
  have hskip : parseLine (kindLine k'.text []) = none := by cases k' <;> decide
  rw [hnil, ← hkind, ← htext, hskip] at hparse
  cases hparse

/-! ## the file that is left -/

/-- A line that is read as the rule is found. -/
theorem hasRule_of_mem {text : Option Str} (hraw : raw ∈ textLines text)
    (hparse : parseLine raw = some r) (hrule : r.kind ∈ KINDS) (hkind : r.kind = kind)
    (hnorm : normalise kind r.value = normalise kind v) : hasRule kind v text = true := by
  refine hasRule_iff.mpr ⟨r, List.mem_filter.mpr ⟨?_, by simpa using hrule⟩, hkind, hnorm⟩
  exact List.mem_filterMap.mpr ⟨raw, hraw, hparse⟩

/-- What the tools read in a file that gives the entry of a value that is read back. -/
theorem ReadsBack.mem_rules (h : ReadsBack kind value)
    (he : lineEntry (kindLine kind value) = some e) (hkind : kind ∈ KINDS) :
    (Policy.loadFile file).Has e ↔ ∃ r ∈ rules (readToString file), r.entry = some e := by
  rw [Policy.loadFile, Policy.load_eq, Policy.has_ofLines]
  constructor
  · rintro ⟨l, hl, hle⟩
    cases hparse : parseLine l with
    | none =>
        obtain ⟨⟨k, v⟩, hd, hk⟩ := Option.bind_eq_some_iff.mp hle
        obtain rfl := value_of_parseLine_none hparse hd
        exact absurd hk (h.not_bare he)
    | some r' =>
        rw [lineEntry_of_parseLine hparse] at hle
        obtain ⟨-, r, f, -, hrkind, -, hf, hf'⟩ := h
        obtain rfl := Option.some.inj (he.symm.trans hf')
        have halike := Rule.alike_of_entry hf hle
        simp only [Rule.alike, Bool.and_eq_true, beq_iff_eq] at halike
        refine ⟨r', List.mem_filter.mpr ⟨List.mem_filterMap.mpr ⟨l, hl, hparse⟩, ?_⟩, hle⟩
        simpa [halike.1, hrkind] using hkind
  · rintro ⟨r', hr', hentry⟩
    obtain ⟨l, hl, hparse⟩ := List.mem_filterMap.mp (List.mem_filter.mp hr').1
    exact ⟨l, hl, (lineEntry_of_parseLine hparse).trans hentry⟩

/-- The file after an append to whole lines of text: the line of the rule, which is read
back, and the further lines of the note. -/
theorem ReadsBack.textLines_append (h : ReadsBack kind value)
    (he : lineEntry (kindLine kind value) = some e) (hkind : kind ∈ KINDS) {text : Str}
    (hdec : decodeUtf8 (file.getD []) = some text) (hterm : Terminated 10 (file.getD []))
    (note : Option Str) : ∃ l r, textLines (readToString
      (some (file.getD [] ++ utf8Bytes (addLine kind value note ++ ['\n'])))) =
        textLines (readToString file) ++ l :: noteLines note ∧
      parseLine l = some r ∧ r.kind = kind ∧ normalise kind r.value = normalise kind value ∧
      lineEntry l = some e := by
  obtain ⟨hfree, r, f, hparse, hrkind, hnorm, hf, hf'⟩ := h
  obtain rfl := Option.some.inj (he.symm.trans hf')
  obtain ⟨l, hlines, hbody⟩ := lines_addLine (newline_not_mem_kindLine hkind hfree) note
  obtain ⟨c, hl⟩ := parseLine_of_lineBody hbody hparse
  have hnew : decodeUtf8 (Option.getD (some (file.getD [] ++
      utf8Bytes (addLine kind value note ++ ['\n']))) []) =
        some (text ++ (addLine kind value note ++ ['\n'])) := by
    rw [Option.getD_some, decodeUtf8_append, hdec, Option.map_some]
  have htext : NewlineTerminated text := by
    rwa [← terminated_utf8Bytes, ← decodeUtf8_eq_some.mp hdec]
  refine ⟨l, { r with comment := c }, ?_, hl, hrkind, hnorm, (lineEntry_of_parseLine hl).trans hf⟩
  rw [textLines_of_decode hnew, textLines_of_decode hdec, lines_append htext, hlines]

/-! ## added exactly once -/

theorem hasRule_congr {text : Option Str} (h : normalise kind v = normalise kind value) :
    hasRule kind v text = hasRule kind value text := by
  rw [hasRule, hasRule, h]

/-- Both spellings are written alike, where they denote the same entry. -/
theorem Carried.normalise_eq (h : Carried kind value value') (haccept : addError kind value = none)
    (hv : v = value ∨ v = value') (hvaccept : addError kind v = none)
    (he : lineEntry (kindLine kind value) = some e) (hve : lineEntry (kindLine kind v) = some e) :
    normalise kind v = normalise kind value := by
  obtain ⟨hback, hother⟩ := h haccept
  obtain rfl | rfl := hv
  · rfl
  · exact hback.normalise_eq (hother hvaccept e he hve) he hve

/-- A call that finds the rule. -/
theorem addsOnce_iff_present (hc : Carried kind value value') (haccept : addError kind value = none)
    (hdup : hasRule kind value (readToString file) = true) :
    AddsOnce kind value value' note w file ↔ Suits kind value note w file := by
  obtain ⟨hback, -⟩ := hc haccept
  have hstored : storedAdd kind value note w file = (some (.added false), file) :=
    storedAdd_present haccept hdup
  have hsuits : Suits kind value note w file ↔
      ∀ e, lineEntry (kindLine kind value) = some e → (Policy.loadFile file).Has e := by
    simp only [Suits, haccept, hdup, if_true, true_imp_iff]
    refine forall_congr' fun e => imp_congr_right fun he => ?_
    exact (hback.mem_rules he (kind_mem_of_addError haccept)).symm
  rw [hsuits]
  constructor
  · intro h e he
    obtain ⟨e', he', hhas⟩ := h.present (by rw [hstored])
    obtain rfl := Option.some.inj (he.symm.trans he')
    exact hhas
  · intro h
    obtain ⟨-, r, e, -, -, -, -, he⟩ := hback
    constructor
    · rw [hstored]
      rintro ⟨⟩
    · intro _
      exact ⟨e, he, h e he⟩
    · intro b _ v hv hvaccept e' he' hve note' w'
      rw [hstored]
      exact storedAdd_present hvaccept
        ((hasRule_congr (hc.normalise_eq haccept hv hvaccept he' hve)).trans hdup)
    · intro hno
      rw [hstored] at hno
      exact absurd rfl (hno false)

/-- A call whose write fails. -/
theorem addsOnce_iff_failed {left : Option (List UInt8)} (hc : Carried kind value value')
    (haccept : addError kind value = none)
    (hdup : hasRule kind value (readToString file) = false) :
    AddsOnce kind value value' note (.failed left) file ↔
      Suits kind value note (.failed left) file := by
  obtain ⟨⟨-, r, e, -, -, -, -, he⟩, -⟩ := hc haccept
  have hstored : storedAdd kind value note (.failed left) file = (none, left) :=
    storedAdd_failed haccept hdup
  have hsuits : Suits kind value note (.failed left) file ↔ left = file := by
    simp [Suits, haccept, hdup, he]
  rw [hsuits]
  constructor
  · intro h
    simpa [hstored] using h.error (by simp [hstored])
  · intro h
    constructor
    · rw [hstored]
      rintro ⟨⟩
    · rw [hstored]
      rintro ⟨⟩
    · rw [hstored]
      rintro b ⟨⟩
    · intro _
      rw [hstored]
      exact h

/-- A call that writes. -/
theorem addsOnce_iff_written (hc : Carried kind value value') (haccept : addError kind value = none)
    (hdup : hasRule kind value (readToString file) = false)
    (hterm : Terminated 10 (file.getD [])) :
    AddsOnce kind value value' note .written file ↔ Suits kind value note .written file := by
  obtain ⟨hback, -⟩ := hc haccept
  have hkind := kind_mem_of_addError haccept
  have hstored : storedAdd kind value note .written file = _ := storedAdd_written haccept hdup
  obtain ⟨-, -, e, -, -, -, -, he⟩ := id hback
  have hsuits : Suits kind value note .written file ↔ (decodeUtf8 (file.getD [])).isSome ∧
      (noteLines note).foldl Policy.loadLine ((Policy.loadFile file).insert e) =
        (Policy.loadFile file).insert e := by
    simp [Suits, haccept, hdup, he]
  rw [hsuits]
  cases hdec : decodeUtf8 (file.getD []) with
  | none =>
      -- the file is not read, before or after, so that nothing has been added
      have hbefore : Policy.loadFile file = .initial := by
        rw [Policy.loadFile, readToString_eq_none hdec]
        rfl
      have hafter : Policy.loadFile (storedAdd kind value note .written file).2 = .initial := by
        rw [hstored, Policy.loadFile, readToString_append, hdec]
        rfl
      refine iff_of_false (fun h => ?_) (by simp)
      obtain ⟨e', -, hload⟩ := h.added (by rw [hstored])
      rw [hafter, hbefore] at hload
      have hhas : (Policy.initial.insert e').Has e' := (Policy.has_insert _ _ _).mpr (.inl rfl)
      rw [← hload] at hhas
      exact Policy.not_has_initial e' hhas
  | some text =>
      obtain ⟨l, r, hlines, hparse, hrkind, hnorm, hentry⟩ :=
        hback.textLines_append he hkind hdec hterm note
      have hload : Policy.loadFile (storedAdd kind value note .written file).2 =
          (noteLines note).foldl Policy.loadLine ((Policy.loadFile file).insert e) := by
        rw [hstored, Policy.loadFile, Policy.load_eq, hlines, Policy.ofLines, List.foldl_append,
          List.foldl_cons, Policy.loadLine_of_lineEntry hentry]
        rfl
      simp only [Option.isSome_some, true_and]
      rw [← hload]
      constructor
      · intro h
        obtain ⟨e', he', h⟩ := h.added (by rw [hstored])
        obtain rfl := Option.some.inj (he.symm.trans he')
        exact h
      · intro h
        constructor
        · intro _
          exact ⟨e, he, h⟩
        · rw [hstored]
          rintro ⟨⟩
        · intro b _ v hv hvaccept e' he' hve note' w'
          have hnorm' := hc.normalise_eq haccept hv hvaccept he' hve
          rw [hstored]
          refine storedAdd_present hvaccept (hasRule_of_mem ?_ hparse ?_ hrkind ?_)
          · rw [hlines]
            simp
          · rw [hrkind]
            exact hkind
          · rw [hnorm, hnorm']
        · intro hno
          rw [hstored] at hno
          exact absurd rfl (hno true)

theorem addsOnce_iff (hc : Carried kind value value') (hterm : Terminated 10 (file.getD [])) :
    AddsOnce kind value value' note w file ↔ Suits kind value note w file := by
  cases haccept : addError kind value with
  | some er =>
      have hstored : storedAdd kind value note w file = (some (.invalid er), file) :=
        storedAdd_invalid haccept
      refine iff_of_true ⟨?_, ?_, ?_, fun _ => by rw [hstored]⟩ fun h => by simp [haccept] at h
      all_goals rw [hstored]
      · rintro ⟨⟩
      · rintro ⟨⟩
      · rintro b ⟨⟩
  | none =>
      cases hdup : hasRule kind value (readToString file) with
      | true => exact addsOnce_iff_present hc haccept hdup
      | false =>
          cases w with
          | written => exact addsOnce_iff_written hc haccept hdup hterm
          | failed left => exact addsOnce_iff_failed hc haccept hdup

/-! ## what can be carried -/

omit [Casing] in
theorem mem_of_mem_keyValue {c : Char} {body : Str} (h : c ∈ (keyValue body).2) : c ∈ body := by
  rw [keyValue] at h
  have hmem := mem_of_mem_trim h
  cases hs : (splitFirst isWhitespace body).2 with
  | none => simp [hs] at hmem
  | some t =>
      rw [hs] at hmem
      exact mem_of_splitFirst_eq_some hs hmem

omit [Casing] in
/-- What the tools read as the value comes from the line. -/
theorem mem_of_mem_value {c : Char} (hr : parseLine raw = some r) (h : c ∈ r.value) : c ∈ raw := by
  obtain ⟨-, -, rfl⟩ := parseLine_eq_some_iff.mp hr
  have hbody : c ∈ lineBody raw := mem_of_mem_keyValue h
  exact (not_of_mem_splitFirst (p := (· == '#')) (mem_of_mem_trim hbody)).1

/-- Values that are added once to an empty file are read back. -/
theorem carried_of_addsOnce [LawfulCasing]
    (h : AddsOnce kind value value' none .written (some [])) : Carried kind value value' := by
  intro haccept
  have hkind := kind_mem_of_addError haccept
  have hdup : hasRule kind value (readToString (some [])) = false := rfl
  have hstored : storedAdd kind value none .written (some []) = _ := storedAdd_written haccept hdup
  obtain ⟨e, he, hload⟩ := h.added (by rw [hstored])
  have hread : readToString (storedAdd kind value none .written (some [])).2 =
      some (addLine kind value none ++ ['\n']) := by
    rw [hstored, readToString, Option.bind_some, Option.getD_some, List.nil_append,
      decodeUtf8_utf8Bytes]
  -- a second call finds a rule in what was written
  have hfound {v : Str} (hv : v = value ∨ v = value') (hvaccept : addError kind v = none)
      (hve : lineEntry (kindLine kind v) = some e) : ∃ r ∈ rules (some (addLine kind value none ++ ['\n'])),
        r.kind = kind ∧ normalise kind r.value = normalise kind v := by
    have hagain := h.again true (by rw [hstored]) v hv hvaccept e he hve none .written
    rw [← hread, ← hasRule_iff]
    by_contra hno
    rw [storedAdd_written hvaccept (by simpa using hno)] at hagain
    cases (Prod.mk.inj hagain).1
  have hfree : '\n' ∉ normalise kind value := by
    obtain ⟨r, hr, -, hnorm⟩ := hfound (.inl rfl) haccept he
    obtain ⟨raw, hraw, hparse⟩ := List.mem_filterMap.mp (List.mem_filter.mp hr).1
    intro hmem
    rw [← hnorm] at hmem
    exact newline_not_mem_of_mem_lines hraw (mem_of_mem_value hparse (newline_normalise hmem))
  obtain ⟨l, hlines, hbody⟩ := lines_addLine (newline_not_mem_kindLine hkind hfree) none
  -- so it is what is read on the one line
  have hread' {v : Str} (hv : v = value ∨ v = value') (hvaccept : addError kind v = none)
      (hve : lineEntry (kindLine kind v) = some e) : ∃ r,
        parseLine (kindLine kind (normalise kind value)) = some r ∧ r.kind = kind ∧
          normalise kind r.value = normalise kind v ∧ r.entry = some e := by
    obtain ⟨r, hr, hrkind, hnorm⟩ := hfound hv hvaccept hve
    obtain ⟨raw, hraw, hparse⟩ := List.mem_filterMap.mp (List.mem_filter.mp hr).1
    rw [textLines, hlines] at hraw
    obtain rfl := List.mem_singleton.mp hraw
    obtain ⟨c, hc⟩ := parseLine_of_lineBody hbody.symm hparse
    refine ⟨_, hc, hrkind, hnorm, ?_⟩
    have hone : lineEntry raw = some e := by
      rw [Policy.loadFile, hread, Policy.load_eq, textLines, hlines] at hload
      have hhas : (Policy.ofLines [raw]).Has e := by
        rw [show noteLines none = [] from rfl] at hload
        rw [hload]
        exact (Policy.has_insert _ _ _).mpr (.inl rfl)
      obtain ⟨l, hl, hle⟩ := (Policy.has_ofLines [raw]).mp hhas
      rwa [List.mem_singleton.mp hl] at hle
    exact (lineEntry_of_parseLine hparse).symm.trans hone
  obtain ⟨r, hparse, hrkind, hnorm, hentry⟩ := hread' (.inl rfl) haccept he
  refine ⟨⟨hfree, r, e, hparse, hrkind, hnorm, hentry, he⟩, fun haccept' e' he' hve => ?_⟩
  obtain rfl := Option.some.inj (he.symm.trans he')
  obtain ⟨r', hparse', hrkind', hnorm', hentry'⟩ := hread' (.inr rfl) haccept' hve
  obtain rfl := Option.some.inj (hparse.symm.trans hparse')
  have hsame : normalise kind value' = normalise kind value := hnorm'.symm.trans hnorm
  exact ⟨by rwa [hsame], r, e, by rwa [hsame], hrkind, hnorm', hentry, hve⟩

/-- **Adding a rule.**  A value that is read back, in both spellings, is added exactly once
to exactly the files that suit the call; and only such values are added once to an empty
file. -/
theorem add_rule_once [LawfulCasing] (kind value value' : Str) :
    (Carried kind value value' → ∀ (note : Option Str) (w : WriteResult)
      (file : Option (List UInt8)), Terminated 10 (file.getD []) →
        (AddsOnce kind value value' note w file ↔ Suits kind value note w file)) ∧
    (AddsOnce kind value value' none .written (some []) ↔ Carried kind value value') := by
  refine ⟨fun hc note w file hterm => addsOnce_iff hc hterm, carried_of_addsOnce, fun hc => ?_⟩
  refine (addsOnce_iff hc terminated_nil).mpr fun _ e _ => ?_
  exact ⟨rfl, rfl⟩

omit [Casing] in
/-- A host in capitals, and in brackets. -/
theorem add_rule_once_host :
    letI := asciiCasing
    AddsOnce Keyword.denyHost.text "Example.COM:443".toList "[example.com]:443".toList
      (some "by hand".toList) .written (some (utf8Bytes "default allow\n".toList)) := by
  let _ := asciiCasing
  have hback : ReadsBack Keyword.denyHost.text "Example.COM:443".toList :=
    ⟨by decide +kernel, ⟨Keyword.denyHost.text, "example.com:443".toList, none⟩,
      ⟨.deny, .host "example.com".toList (some 443)⟩, by decide +kernel⟩
  have hback' : ReadsBack Keyword.denyHost.text "[example.com]:443".toList :=
    ⟨by decide +kernel, ⟨Keyword.denyHost.text, "example.com:443".toList, none⟩,
      ⟨.deny, .host "example.com".toList (some 443)⟩, by decide +kernel⟩
  have hsuits : Suits Keyword.denyHost.text "Example.COM:443".toList (some "by hand".toList) .written
      (some (utf8Bytes "default allow\n".toList)) := by
    intro _ e _
    have hdup : hasRule Keyword.denyHost.text "Example.COM:443".toList
        (readToString (some (utf8Bytes "default allow\n".toList))) = false := by decide +kernel
    rw [hdup]
    exact ⟨by decide +kernel, rfl⟩
  exact ((add_rule_once _ _ _).1 (fun _ => ⟨hback, fun _ _ _ _ => hback'⟩) _ _ _
    (.inr ⟨utf8Bytes "default allow".toList, by decide⟩)).mpr hsuits

omit [Casing] in
/-- A path with a `#` is added again by a second call; a bracketed host with a colon is read
back as another one; and `a:5` is not added beside `[a:5]`, which is another host. -/
theorem add_rule_once_fails :
    letI := asciiCasing
    let add (kind value file : Str) := storedAdd kind value none .written (some (utf8Bytes file))
    (¬ ∀ (kind value value' : Str) (note : Option Str) (w : WriteResult)
      (file : Option (List UInt8)), kind ∈ KINDS → Terminated 10 (file.getD []) →
        AddsOnce kind value value' note w file) ∧
    add Keyword.allowApp.text "/c#/x".toList "allow-app /c#/x\n".toList =
      (some (.added true), some (utf8Bytes "allow-app /c#/x\nallow-app /c#/x\n".toList)) ∧
    ("a:b".toList, some 5) ∉
      (Policy.loadFile (add Keyword.denyHost.text "[a:b]:5".toList []).2).denyHost ∧
    add Keyword.denyHost.text "a:5".toList "deny-host [a:5]\n".toList =
      (some (.added false), some (utf8Bytes "deny-host [a:5]\n".toList)) := by
  let _ := asciiCasing
  refine ⟨fun h => ?_, by decide +kernel, by decide +kernel, by decide +kernel⟩
  have hagain := (h Keyword.allowApp.text "/c#/x".toList "/c#/x".toList none .written (some [])
    (by decide) terminated_nil).again true (by decide +kernel) "/c#/x".toList (.inl rfl)
    (by decide +kernel) ⟨.allow, .app "/c".toList⟩ (by decide +kernel) (by decide +kernel) none .written
  exact absurd hagain (by decide +kernel)

end Pfsnitch
