import Pfsnitch.Policy.Record

/-!
# Pfsnitch.Policy.Edit

The edits of the policy file: `add_rule`, `remove_rule`, `remove_app`,
`clear_rules`, `set_mode` and `set_attribution` of the command line, and the
appends of the daemon (`record`, `record_id`).

`Edit.run` is an edit that nobody interferes with: what it returns and the file
it leaves.

* `Edit.run_keeps` — a line the edit does not name keeps its rule;
* `Edit.run_writes` — the line the edit appends gives its rule.
-/

namespace Pfsnitch

open Lib

/-! ## lines of the file -/

/-- A rule, or a setting, as the file spells it. -/
structure Rule where
  kind : Str
  value : Str
  comment : Option Str
deriving DecidableEq

/-- `KINDS`: the directives that are rules. -/
def KINDS : List Str :=
  [Keyword.allowApp, .denyApp, .allowHost, .denyHost, .allowDest, .denyDest, .allowHostFrom,
    .allowDestFrom, .denyHostFrom, .denyDestFrom].map Keyword.text

/-- `split_comment`. -/
def splitComment (raw : Str) : Str × Option Str :=
  let (body, rest) := splitFirst (· == '#') raw
  (body, rest.map trim)

/-- `parse_line`. -/
def parseLine (raw : Str) : Option Rule :=
  let (body, comment) := splitComment raw
  let body := trim body
  if body = [] then none
  else
    let (k, v) := keyValue body
    if v = [] then none else some ⟨k, v, comment⟩

/-- What every line of the file says, in file order. -/
def parsed (text : Option Str) : List Rule := (textLines text).filterMap parseLine

/-- `rules`: every rule in the file, in file order. -/
def rules (text : Option Str) : List Rule := (parsed text).filter fun r => r.kind ∈ KINDS

section

variable [Casing]

/-- A host pattern in canonical form. -/
def normaliseHost (value : Str) : Str :=
  let (h, p) := splitTarget value
  joinTarget (lower h) p

/-- An address in canonical form, if it is one. -/
def normaliseDest (value : Str) : Option Str :=
  let (a, p) := splitTarget value
  (parseIpAddr a).map fun addr => joinTarget (showIpAddr addr) p

/-- `normalise`: the spelling under which two values are compared. -/
def normalise (kind value : Str) : Str :=
  match Keyword.ofText kind with
  | some .allowHost | some .denyHost => normaliseHost value
  | some .allowHostFrom | some .denyHostFrom =>
    match splitScoped value with
    | some (h, e) => normaliseHost h ++ ' ' :: e
    | none => value
  | some .allowDestFrom | some .denyDestFrom =>
    match splitScoped value with
    | some (a, e) =>
      match normaliseDest a with
      | some d => d ++ ' ' :: e
      | none => value
    | none => value
  | some .allowDest | some .denyDest => (normaliseDest value).getD value
  | _ => value

end

/-! ## the loops -/

/-- The lines of a file that `hit` does not hit, each with its newline, and how many
it hits. -/
def sweep (hit : Rule → Bool) (text : Str) : Str × Nat :=
  (lines text).foldl (fun (kept, removed) raw =>
    if (parseLine raw).any hit then (kept, removed + 1) else (kept ++ raw ++ ['\n'], removed))
    ([], 0)

/-- One turn of the loop of `set_directive`: the first line of the key is replaced,
later ones are dropped. -/
def directiveTurn (key value : Str) : Str × Bool → Str → Str × Bool
  | (out, written), raw =>
    if (parseLine raw).any (·.kind == key) then
      if written then (out, true) else (out ++ (key ++ ' ' :: value) ++ ['\n'], true)
    else (out ++ raw ++ ['\n'], written)

/-- `set_directive`: without a line of the key, the setting goes to the end. -/
def setDirective (key value text : Str) : Str :=
  let (out, written) := (lines text).foldl (directiveTurn key value) ([], false)
  if written then out else out ++ (key ++ ' ' :: value) ++ ['\n']

/-- The rules of one binary, with its pin. -/
def Rule.belongsTo (exe : Str) (r : Rule) : Bool :=
  match Keyword.ofText r.kind with
  | some .allowApp | some .denyApp => r.value == exe
  | some .appId | some .allowHostFrom | some .denyHostFrom | some .allowDestFrom
  | some .denyDestFrom => (splitScoped r.value).any (·.2 == exe)
  | _ => false

/-- What `clear_rules` takes for a rule. -/
def Rule.clears (r : Rule) : Bool := r.kind ∈ KINDS || r.kind == Keyword.appId.text

/-- `remove_rule`: every rule that matches kind and value, in any spelling. -/
def removeRule [Casing] (kind value text : Str) : Str × Nat :=
  let want := normalise kind value
  sweep (fun r => r.kind == kind && normalise r.kind r.value == want) text

/-- `remove_app`. -/
def removeApp (exe text : Str) : Str × Nat := sweep (Rule.belongsTo exe) text

/-- `clear_rules`. -/
def clearRules (text : Str) : Str × Nat := sweep Rule.clears text

def Mode.asStr : Mode → Str
  | .visibility => "visibility".toList
  | .enforcement => "enforcement".toList

def AttributionMode.asStr : AttributionMode → Str
  | .procstat => "procstat".toList
  | .kernel => "kernel".toList

/-- `set_mode`. -/
def setMode (m : Mode) (text : Str) : Str := setDirective Keyword.mode.text m.asStr text

/-- `set_attribution`. -/
def setAttribution (a : AttributionMode) (text : Str) : Str :=
  setDirective Keyword.attribution.text a.asStr text

/-! ## adding -/

/-- Why `add_rule` refuses its arguments. -/
inductive InvalidInput
  | unknownRule (kind : Str)
  | notAddress (value : Str)
  | needsBinary (kind : Str)
deriving DecidableEq

/-- The checks of `add_rule`, in order. -/
def addError (kind value : Str) : Option InvalidInput :=
  if kind ∉ KINDS then some (.unknownRule kind)
  else
    match Keyword.ofText kind with
    | some .allowHostFrom | some .denyHostFrom =>
      if (splitScoped value).isSome then none else some (.needsBinary kind)
    | some .allowDestFrom | some .denyDestFrom =>
      match splitScoped value with
      | some (d, _) =>
        if (parseIpAddr (splitTarget d).1).isSome then none else some (.notAddress d)
      | none => some (.needsBinary kind)
    | some .allowDest | some .denyDest =>
      if (parseIpAddr (splitTarget value).1).isSome then none else some (.notAddress value)
    | _ => none

section

variable [Casing]

/-- Is an equivalent rule in the file? -/
def hasRule (kind value : Str) (text : Option Str) : Bool :=
  (rules text).any fun r => r.kind == kind && normalise r.kind r.value == normalise kind value

/-- The line of `add_rule`. -/
def addLine (kind value : Str) (note : Option Str) : Str :=
  kind ++ ' ' :: normalise kind value ++
    match note with
    | some n => "\t# ".toList ++ n
    | none => []

end

/-! ## edits -/

/-- An edit of the policy file, with the arguments of its call. -/
inductive Edit
  | addRule (kind value : Str) (note : Option Str)
  | removeRule (kind value : Str)
  | removeApp (exe : Str)
  | clearRules
  | setMode (mode : Mode)
  | setAttribution (attribution : AttributionMode)
  | record (p : Policy) (ans : Answer) (exe : Option Str) (dst : IpAddr) (host : Option Str)
      (dport : UInt16) (origin : Origin)
  | recordId (p : Policy) (exe : Str) (sha : Digest)

/-- What an edit returns: an error, whether a rule was added, how many lines went,
or nothing. -/
inductive Returned
  | invalid (e : InvalidInput)
  | notFound
  | added (b : Bool)
  | removed (n : Nat)
  | unit
deriving DecidableEq

namespace Edit

variable [Casing]

/-- The line an append of the daemon writes. -/
def recorded : Edit → Option Str
  | .record p ans exe dst host dport origin => (p.record ans exe dst host dport origin).2
  | .recordId p exe sha => (p.recordId exe sha).2
  | _ => none

/-- Does the edit name what this line says? -/
def names (op : Edit) (r : Rule) : Bool :=
  match op with
  | .removeRule kind value => r.kind == kind && normalise r.kind r.value == normalise kind value
  | .removeApp exe => r.belongsTo exe
  | .clearRules => r.clears
  | .setMode _ => r.kind == Keyword.mode.text
  | .setAttribution _ => r.kind == Keyword.attribution.text
  | .addRule .. | .record .. | .recordId .. => false

/-- What a removal writes back and returns: nothing is written when nothing went. -/
def swept (r : Str × Nat) : Option Str × Returned :=
  (if r.2 > 0 then some r.1 else none, .removed r.2)

/-- What a rewrite makes of the text it has read: the data it writes back, if it
writes, and what it returns. -/
def rewrite (op : Edit) (text : Str) : Option Str × Returned :=
  match op with
  | .removeRule kind value => swept (Pfsnitch.removeRule kind value text)
  | .removeApp exe => swept (Pfsnitch.removeApp exe text)
  | .clearRules => swept (Pfsnitch.clearRules text)
  | .setMode m => (some (Pfsnitch.setMode m text), .unit)
  | .setAttribution a => (some (Pfsnitch.setAttribution a text), .unit)
  | .addRule .. | .record .. | .recordId .. => (none, .unit)

/-- The edit, alone with the file. -/
def run (op : Edit) (file : Option Str) : Returned × Option Str :=
  match op with
  | .addRule kind value note =>
    match addError kind value with
    | some e => (.invalid e, file)
    | none =>
      if hasRule kind value file then (.added false, file)
      else (.added true, some (appendLine file (addLine kind value note)))
  | .removeRule .. | .removeApp _ | .clearRules =>
    match file with
    | none => (.notFound, none)
    | some text => ((op.rewrite text).2, some ((op.rewrite text).1.getD text))
  | .setMode _ | .setAttribution _ =>
    ((op.rewrite (file.getD [])).2, (op.rewrite (file.getD [])).1)
  | .record .. | .recordId .. =>
    match op.recorded with
    | some l => (.unit, some (appendLine file l))
    | none => (.unit, file)

/-- The line that an edit which returned this has appended. -/
def line (op : Edit) (ret : Returned) : Option Str :=
  match op, ret with
  | .addRule kind value note, .added true => some (addLine kind value note)
  | .record .., _ | .recordId .., _ => op.recorded
  | _, _ => none

end Edit

/-! ## what a line says -/

/-- What the tools read on a line: the two parts of its body, and its comment. -/
theorem parseLine_eq_some_iff {raw : Str} {r : Rule} :
    parseLine raw = some r ↔ lineBody raw ≠ [] ∧ (keyValue (lineBody raw)).2 ≠ [] ∧
      r = ⟨(keyValue (lineBody raw)).1, (keyValue (lineBody raw)).2, (splitComment raw).2⟩ := by
  have hbody : trim (splitComment raw).1 = lineBody raw := rfl
  simp only [parseLine, hbody]
  split_ifs with hnil hvalue
  · simp [hnil]
  · simp [hvalue]
  · simp [hnil, hvalue, eq_comm]

/-- The tools skip a line without a body, and a word without a value. -/
theorem parseLine_eq_none_iff {raw : Str} :
    parseLine raw = none ↔ lineBody raw = [] ∨ (keyValue (lineBody raw)).2 = [] := by
  have hbody : trim (splitComment raw).1 = lineBody raw := rfl
  simp only [parseLine, hbody]
  split_ifs with hnil hvalue
  · simp [hnil]
  · simp [hvalue]
  · simp [hnil, hvalue]

/-- A carriage return at the end of a line is part of neither the body nor the comment. -/
theorem splitComment_stripCr (raw : Str) :
    lineBody (stripCr raw) = lineBody raw ∧
      (splitComment (stripCr raw)).2 = (splitComment raw).2 := by
  obtain h | h := stripCr_cases raw
  · rw [h]
    exact ⟨rfl, rfl⟩
  · have hsplit := splitFirst_concat (p := (· == '#')) (c := '\r') rfl (stripCr raw)
    have hws : isWhitespace '\r' = true := by decide
    rw [← h] at hsplit
    rw [lineBody, lineBody, splitComment, splitComment, hsplit]
    obtain ⟨a, _ | b⟩ := splitFirst (· == '#') (stripCr raw)
    · exact ⟨(trim_concat hws a).symm, rfl⟩
    · exact ⟨rfl, congrArg some (trim_concat hws b).symm⟩

theorem lineBody_stripCr (raw : Str) : lineBody (stripCr raw) = lineBody raw :=
  (splitComment_stripCr raw).1

/-- A carriage return at the end of a line changes nothing of what it says. -/
theorem parseLine_stripCr (raw : Str) : parseLine (stripCr raw) = parseLine raw := by
  ext r
  rw [parseLine_eq_some_iff, parseLine_eq_some_iff, lineBody_stripCr, (splitComment_stripCr raw).2]

/-- What is written out line by line says what the lines say. -/
theorem parsed_unlines {ls : List Str} (h : ∀ l ∈ ls, '\n' ∉ l) :
    parsed (some (unlines ls)) = ls.filterMap parseLine := by
  rw [parsed, textLines, lines_unlines h, List.filterMap_map]
  congr 1
  exact funext parseLine_stripCr

/-! ## what the loops do -/

/-- The lines that are not hit, written out, and the number of those that are. -/
theorem sweep_eq (hit : Rule → Bool) (text : Str) :
    sweep hit text = (unlines ((lines text).filter fun raw => !(parseLine raw).any hit),
      (lines text).countP fun raw => (parseLine raw).any hit) := by
  rw [sweep]
  induction lines text using List.reverseRecOn with
  | nil => rfl
  | append_singleton ls raw ih =>
      rw [List.foldl_append, ih, List.foldl_cons, List.foldl_nil, List.filter_append,
        List.countP_append]
      by_cases h : (parseLine raw).any hit
      · simp [h]
      · simp [h, unlines_concat]

/-- A line that is not hit keeps what it says. -/
theorem mem_parsed_sweep {hit : Rule → Bool} {text : Str} {r : Rule} (hr : r ∈ parsed (some text))
    (hhit : hit r = false) : r ∈ parsed (some (sweep hit text).1) := by
  obtain ⟨raw, hraw, hparse⟩ := List.mem_filterMap.mp hr
  rw [sweep_eq, parsed_unlines fun l hl => newline_not_mem_of_mem_lines (List.mem_filter.mp hl).1]
  refine List.mem_filterMap.mpr ⟨raw, List.mem_filter.mpr ⟨hraw, ?_⟩, hparse⟩
  simp [hparse, hhit]

/-- Lines that give the other directives of `raws`, and the setting. -/
def Redirected (key value : Str) (raws ls : List Str) : Prop :=
  (∀ l ∈ ls, l ∈ raws ∨ l = key ++ ' ' :: value) ∧
    ∀ raw ∈ raws, (parseLine raw).any (·.kind == key) = false → raw ∈ ls

/-- A line that the tools read as one of the directive. -/
def isDirective (key raw : Str) : Bool := (parseLine raw).any (·.kind == key)

/-- The loop of `set_directive` keeps the other lines in order, and one line of the key. -/
theorem directiveTurn_eq {key value : Str} (hkey : isDirective key (key ++ ' ' :: value) = true)
    (raws : List Str) : ∃ ls, (raws.foldl (directiveTurn key value) ([], false)).1 = unlines ls ∧
      ls.filter (!isDirective key ·) = raws.filter (!isDirective key ·) ∧
      ls.filter (isDirective key) =
        if (raws.foldl (directiveTurn key value) ([], false)).2 then [key ++ ' ' :: value] else [] := by
  induction raws using List.reverseRecOn with
  | nil => exact ⟨[], rfl, rfl, rfl⟩
  | append_singleton raws raw ih =>
      obtain ⟨ls, hout, hother, hone⟩ := ih
      rw [List.foldl_append, List.foldl_cons, List.foldl_nil]
      generalize raws.foldl (directiveTurn key value) ([], false) = acc at hout hone
      obtain ⟨out, written⟩ := acc
      simp only at hout hone
      subst hout
      rw [directiveTurn, show (parseLine raw).any (·.kind == key) = isDirective key raw from rfl]
      cases hraw : isDirective key raw with
      | true =>
          cases written with
          | true => exact ⟨ls, rfl, by simp [hother, hraw], by simpa using hone⟩
          | false =>
              refine ⟨ls ++ [key ++ ' ' :: value], (unlines_concat _ _).symm, ?_, ?_⟩
              · simp [hother, hraw, hkey]
              · simpa [hkey] using hone
      | false =>
          refine ⟨ls ++ [raw], (unlines_concat _ _).symm, ?_, ?_⟩
          · simp [hother, hraw]
          · simpa [hraw] using hone

/-- `set_directive` writes the other lines out again in order, and one line of the key. -/
theorem setDirective_eq {key value : Str} (hkey : isDirective key (key ++ ' ' :: value) = true)
    (text : Str) : ∃ ls, setDirective key value text = unlines ls ∧
      ls.filter (!isDirective key ·) = (lines text).filter (!isDirective key ·) ∧
      ls.filter (isDirective key) = [key ++ ' ' :: value] := by
  obtain ⟨ls, hout, hother, hone⟩ := directiveTurn_eq hkey (lines text)
  rw [setDirective]
  generalize (lines text).foldl (directiveTurn key value) ([], false) = acc at hout hone
  obtain ⟨out, written⟩ := acc
  simp only at hout hone
  subst hout
  cases written with
  | true => exact ⟨ls, rfl, hother, by simpa using hone⟩
  | false =>
      refine ⟨ls ++ [key ++ ' ' :: value], (unlines_concat _ _).symm, ?_, ?_⟩
      · simp [hother, hkey]
      · simpa [hkey] using hone

theorem redirected_of_filter {key value : Str} {raws ls : List Str}
    (hother : ls.filter (!isDirective key ·) = raws.filter (!isDirective key ·))
    (hone : ls.filter (isDirective key) = [key ++ ' ' :: value]) : Redirected key value raws ls := by
  constructor
  · intro l hl
    cases hkey : isDirective key l with
    | true =>
        right
        have hmem : l ∈ ls.filter (isDirective key) := List.mem_filter.mpr ⟨hl, hkey⟩
        rw [hone] at hmem
        exact List.mem_singleton.mp hmem
    | false =>
        left
        have hmem : l ∈ ls.filter (!isDirective key ·) := List.mem_filter.mpr ⟨hl, by simp [hkey]⟩
        rw [hother] at hmem
        exact (List.mem_filter.mp hmem).1
  · intro raw hraw hno
    have hmem : raw ∈ raws.filter (!isDirective key ·) :=
      List.mem_filter.mpr ⟨hraw, by simpa [isDirective] using hno⟩
    rw [← hother] at hmem
    exact (List.mem_filter.mp hmem).1

/-- A line of another directive keeps what it says. -/
theorem mem_parsed_setDirective {key value text : Str} {r : Rule}
    (hkey : isDirective key (key ++ ' ' :: value) = true) (hline : '\n' ∉ key ++ ' ' :: value)
    (hr : r ∈ parsed (some text)) (hother : (r.kind == key) = false) :
    r ∈ parsed (some (setDirective key value text)) := by
  obtain ⟨raw, hraw, hparse⟩ := List.mem_filterMap.mp hr
  obtain ⟨ls, hls, hfilter, hone⟩ := setDirective_eq hkey text
  obtain ⟨hfrom, hkept⟩ := redirected_of_filter hfilter hone
  rw [hls, parsed_unlines]
  · refine List.mem_filterMap.mpr ⟨raw, hkept raw hraw ?_, hparse⟩
    rw [hparse, Option.any_some, hother]
  · intro l hl
    cases hfrom l hl with
    | inl hl => exact newline_not_mem_of_mem_lines hl
    | inr hl => exact hl ▸ hline

/-! ## what an edit does -/

section

variable [Casing] {op : Edit} {file : Option Str} {r : Rule}

omit [Casing] in
theorem parsed_appendLine {l : Str} (hterm : NewlineTerminated (file.getD [])) :
    parsed (some (appendLine file l)) = parsed file ++ parsed (some (l ++ ['\n'])) := by
  rw [appendLine, List.append_assoc, parsed, parsed, parsed, textLines, lines_append hterm,
    List.filterMap_append, textLines_eq]
  rfl

namespace Edit

/-- The edit appends, if at all, to a file that ends in a newline. -/
def Appends (op : Edit) (file : Option Str) : Prop :=
  (op.line (op.run file).1).isSome → NewlineTerminated (file.getD [])

/-- An edit that returns with a line has appended it. -/
theorem run_line {l : Str} (hl : op.line (op.run file).1 = some l) :
    (op.run file).2 = some (appendLine file l) := by
  cases op with
  | addRule kind value note =>
      cases herr : addError kind value with
      | some e => simp [run, line, herr] at hl
      | none =>
          by_cases hdup : hasRule kind value file
          · simp [run, line, herr, hdup] at hl
          · obtain rfl : addLine kind value note = l := by
              simpa [run, line, herr, hdup] using hl
            simp [run, herr, hdup]
  | record p ans exe dst host dport origin =>
      have hrec : (Edit.record p ans exe dst host dport origin).recorded = some l := by
        simpa [line] using hl
      simp only [run, hrec]
  | recordId p exe sha =>
      have hrec : (Edit.recordId p exe sha).recorded = some l := by
        simpa [line] using hl
      simp only [run, hrec]
  | removeRule | removeApp | clearRules | setMode | setAttribution => simp [line] at hl

omit [Casing] in
/-- A removal that does not hit a line keeps what it says. -/
theorem swept_keeps {hit : Rule → Bool} {text : Str} (hr : r ∈ parsed (some text)) :
    hit r = true ∨ r ∈ parsed (some ((swept (sweep hit text)).1.getD text)) := by
  cases hhit : hit r with
  | true => exact .inl rfl
  | false =>
      right
      unfold swept
      split
      · exact mem_parsed_sweep hr hhit
      · exact hr

omit [Casing] in
/-- Setting a directive keeps what the lines of the others say. -/
theorem setDirective_keeps {key value : Str}
    (hkey : isDirective key (key ++ ' ' :: value) = true) (hline : '\n' ∉ key ++ ' ' :: value)
    (hr : r ∈ parsed file) :
    (r.kind == key) = true ∨ r ∈ parsed (some (setDirective key value (file.getD []))) := by
  cases hother : r.kind == key with
  | true => exact .inl rfl
  | false =>
      rw [parsed, textLines_eq] at hr
      exact .inr (mem_parsed_setDirective hkey hline hr hother)

/-- A line that the edit does not name keeps what it says. -/
theorem run_keeps (hterm : op.Appends file) (hr : r ∈ parsed file) :
    op.names r = true ∨ r ∈ parsed (op.run file).2 := by
  cases hl : op.line (op.run file).1 with
  | some l =>
      rw [run_line hl, parsed_appendLine (hterm (by rw [hl]; rfl))]
      exact .inr (List.mem_append_left _ hr)
  | none =>
      cases op with
      | addRule kind value note =>
          right
          cases herr : addError kind value with
          | some e => simpa [run, herr] using hr
          | none =>
              by_cases hdup : hasRule kind value file
              · simpa [run, herr, hdup] using hr
              · simp [run, line, herr, hdup] at hl
      | removeRule kind value =>
          cases file with
          | none => cases hr
          | some text => exact swept_keeps hr
      | removeApp exe =>
          cases file with
          | none => cases hr
          | some text => exact swept_keeps hr
      | clearRules =>
          cases file with
          | none => cases hr
          | some text => exact swept_keeps hr
      | setMode m => exact setDirective_keeps (by cases m <;> decide) (by cases m <;> decide) hr
      | setAttribution a => exact setDirective_keeps (by cases a <;> decide) (by cases a <;> decide) hr
      | record p ans exe dst host dport origin =>
          have hrec : (Edit.record p ans exe dst host dport origin).recorded = none := by
            simpa [line] using hl
          exact .inr (by simpa only [run, hrec] using hr)
      | recordId p exe sha =>
          have hrec : (Edit.recordId p exe sha).recorded = none := by
            simpa [line] using hl
          exact .inr (by simpa only [run, hrec] using hr)

/-- The line that the edit appends says what it says. -/
theorem run_writes {l : Str} (hterm : op.Appends file) (hl : op.line (op.run file).1 = some l)
    (hr : r ∈ parsed (some (l ++ ['\n']))) : r ∈ parsed (op.run file).2 := by
  rw [run_line hl, parsed_appendLine (hterm (by rw [hl]; rfl))]
  exact List.mem_append_right _ hr

end Edit

end

end Pfsnitch
