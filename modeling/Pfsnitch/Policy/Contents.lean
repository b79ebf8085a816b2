import Pfsnitch.Policy.Edit
import Pfsnitch.Lib.Pieces
import Pfsnitch.Lib.Utf8

/-!
# Pfsnitch.Policy.Contents

Everything that a policy file gives, line by line: entries, pins and settings.  The
loaded policy is determined by them (`Policy.ext_has`), the last line that sets a
pin or a setting wins, and a carriage return at the end of a line says nothing.
-/

namespace Pfsnitch

open Lib

/-! ## the two parsers -/

theorem directive_stripCr (raw : Str) : directive (stripCr raw) = directive raw := by
  rw [directive, directive, lineBody_stripCr]

/-- What the tools read on a line is what `load` reads on it. -/
theorem directive_of_parseLine {raw : Str} {r : Rule} (h : parseLine raw = some r) :
    directive raw = (Keyword.ofText r.kind).map fun k => (k, r.value) := by
  obtain ⟨hne, -, rfl⟩ := parseLine_eq_some_iff.mp h
  rw [directive, if_neg hne]

/-- A line that the tools skip has no directive, or no value. -/
theorem value_of_parseLine_none {raw v : Str} {k : Keyword} (h : parseLine raw = none)
    (hd : directive raw = some (k, v)) : v = [] := by
  simp only [directive] at hd
  split_ifs at hd with hnil
  obtain ⟨k', -, hk⟩ := Option.map_eq_some_iff.mp hd
  obtain ⟨-, rfl⟩ := Prod.mk.inj hk
  exact (parseLine_eq_none_iff.mp h).resolve_left hnil

theorem Keyword.text_of_ofText {s : Str} {k : Keyword} (h : Keyword.ofText s = some k) :
    k.text = s := by
  simpa using List.find?_some h

/-- What `load` reads on a line is what the tools read on it, if it has a value. -/
theorem parseLine_of_directive {raw v : Str} {k : Keyword} (h : directive raw = some (k, v))
    (hv : v ≠ []) : ∃ r, parseLine raw = some r ∧ r.kind = k.text ∧ r.value = v := by
  cases hr : parseLine raw with
  | none => exact absurd (value_of_parseLine_none hr h) hv
  | some r =>
      have hd := directive_of_parseLine hr
      rw [h] at hd
      obtain ⟨k', hk', hkv⟩ := Option.map_eq_some_iff.mp hd.symm
      obtain ⟨rfl, hvalue⟩ := Prod.mk.inj hkv
      exact ⟨r, rfl, (Keyword.text_of_ofText hk').symm, hvalue⟩

theorem value_ne_nil_of_parseLine {raw : Str} {r : Rule} (h : parseLine raw = some r) :
    r.value ≠ [] := by
  obtain ⟨-, hv, rfl⟩ := parseLine_eq_some_iff.mp h
  exact hv

variable [Casing]

/-! ## what a line sets -/

omit [Casing] in
/-- The prompt that a raw line sets. -/
def linePrompt (raw : Str) : Option Str :=
  match directive raw with
  | some (.prompt, v) => some v
  | _ => none

/-- The mode that a raw line sets, when it is one. -/
def lineMode (raw : Str) : Option Mode :=
  match directive raw with
  | some (.mode, v) => Mode.parse v
  | _ => none

/-- The attribution that a raw line sets, when it is one. -/
def lineAttribution (raw : Str) : Option AttributionMode :=
  match directive raw with
  | some (.attribution, v) => AttributionMode.parse v
  | _ => none

/-- The pin that a raw line sets for a binary. -/
def linePin (exe raw : Str) : Option Str :=
  match directive raw with
  | some (.appId, v) => (splitScoped v).bind fun r => if r.2 = exe then some (lower r.1) else none
  | _ => none

theorem lineEntry_stripCr (raw : Str) : lineEntry (stripCr raw) = lineEntry raw := by
  rw [lineEntry, lineEntry, directive_stripCr]

omit [Casing] in
theorem lineDefault_stripCr (raw : Str) : lineDefault (stripCr raw) = lineDefault raw := by
  rw [lineDefault, lineDefault, directive_stripCr]

omit [Casing] in
theorem linePrompt_stripCr (raw : Str) : linePrompt (stripCr raw) = linePrompt raw := by
  rw [linePrompt, linePrompt, directive_stripCr]

theorem lineMode_stripCr (raw : Str) : lineMode (stripCr raw) = lineMode raw := by
  rw [lineMode, lineMode, directive_stripCr]

theorem lineAttribution_stripCr (raw : Str) :
    lineAttribution (stripCr raw) = lineAttribution raw := by
  rw [lineAttribution, lineAttribution, directive_stripCr]

theorem linePin_stripCr (exe raw : Str) : linePin exe (stripCr raw) = linePin exe raw := by
  rw [linePin, linePin, directive_stripCr]

theorem Policy.prompt_loadLine (p : Policy) (raw : Str) :
    (p.loadLine raw).prompt = (linePrompt raw).or p.prompt := by
  unfold loadLine linePrompt
  cases hd : directive raw with
  | none => rfl
  | some d =>
      obtain ⟨k, v⟩ := d
      cases k <;> simp only [apply, Option.or] <;> first | rfl | (split <;> rfl)

theorem Policy.mode_loadLine (p : Policy) (raw : Str) :
    (p.loadLine raw).mode = (lineMode raw).or p.mode := by
  unfold loadLine lineMode
  cases hd : directive raw with
  | none => rfl
  | some d =>
      obtain ⟨k, v⟩ := d
      cases k
      case mode =>
        simp only [apply]
        cases Mode.parse v <;> rfl
      all_goals
        simp only [apply]
        first
          | rfl
          | split <;> rfl

theorem Policy.attribution_loadLine (p : Policy) (raw : Str) :
    (p.loadLine raw).attribution = (lineAttribution raw).or p.attribution := by
  unfold loadLine lineAttribution
  cases hd : directive raw with
  | none => rfl
  | some d =>
      obtain ⟨k, v⟩ := d
      cases k
      case attribution =>
        simp only [apply]
        cases AttributionMode.parse v <;> rfl
      all_goals
        simp only [apply]
        first
          | rfl
          | split <;> rfl

theorem Policy.appId_loadLine (p : Policy) (raw exe : Str) :
    (p.loadLine raw).appId exe = (linePin exe raw).or (p.appId exe) := by
  unfold loadLine linePin
  cases hd : directive raw with
  | none => rfl
  | some d =>
      obtain ⟨k, v⟩ := d
      cases k
      case appId =>
        simp only [apply]
        cases splitScoped v with
        | none => rfl
        | some r =>
            simp only [Option.bind_some]
            by_cases he : r.2 = exe
            · simp [← he]
            · simp [Function.update_of_ne (Ne.symm he), he]
      all_goals
        simp only [apply]
        first
          | rfl
          | split <;> rfl

/-! ## what a file gives -/

/-- The policy that some lines give. -/
def Policy.ofLines (ls : List Str) : Policy := ls.foldl Policy.loadLine .initial

theorem Policy.load_eq (text : Option Str) : Policy.load text = .ofLines (textLines text) := rfl

section

variable (ls : List Str)

theorem Policy.has_ofLines {e : Entry} : (ofLines ls).Has e ↔ ∃ l ∈ ls, lineEntry l = some e := by
  simp [ofLines, has_foldl_loadLine, not_has_initial]

theorem Policy.default_ofLines : (ofLines ls).default = some (lastDefault ls) := by
  rw [ofLines, default_foldl_loadLine, lastDefault]
  cases (ls.filterMap lineDefault).getLast? <;> rfl

theorem Policy.prompt_ofLines : (ofLines ls).prompt = (ls.filterMap linePrompt).getLast? := by
  rw [ofLines, foldl_last prompt prompt_loadLine]
  exact Option.or_none

theorem Policy.mode_ofLines : (ofLines ls).mode = (ls.filterMap lineMode).getLast? := by
  rw [ofLines, foldl_last Policy.mode mode_loadLine]
  exact Option.or_none

theorem Policy.attribution_ofLines :
    (ofLines ls).attribution = (ls.filterMap lineAttribution).getLast? := by
  rw [ofLines, foldl_last Policy.attribution attribution_loadLine]
  exact Option.or_none

theorem Policy.appId_ofLines (exe : Str) :
    (ofLines ls).appId exe = (ls.filterMap (linePin exe)).getLast? := by
  rw [ofLines, foldl_last (·.appId exe) (appId_loadLine · · exe)]
  exact Option.or_none

end

omit [Casing] in
/-- A policy is its entries, its pins and its settings. -/
theorem Policy.ext_has {p p' : Policy} (hhas : ∀ e, p.Has e ↔ p'.Has e)
    (hdefault : p.default = p'.default) (hprompt : p.prompt = p'.prompt)
    (happ : ∀ exe, p.appId exe = p'.appId exe) (hmode : p.mode = p'.mode)
    (hattribution : p.attribution = p'.attribution) : p = p' := by
  ext1
  · exact hdefault
  · exact Finset.ext fun x => hhas ⟨.allow, .app x⟩
  · exact Finset.ext fun x => hhas ⟨.deny, .app x⟩
  · exact Finset.ext fun x => hhas ⟨.allow, .host x.1 x.2⟩
  · exact Finset.ext fun x => hhas ⟨.deny, .host x.1 x.2⟩
  · exact Finset.ext fun x => hhas ⟨.allow, .dest x.1 x.2⟩
  · exact Finset.ext fun x => hhas ⟨.deny, .dest x.1 x.2⟩
  · exact Finset.ext fun x => hhas ⟨.allow, .hostFrom x.1 x.2.1 x.2.2⟩
  · exact Finset.ext fun x => hhas ⟨.allow, .destFrom x.1 x.2.1 x.2.2⟩
  · exact Finset.ext fun x => hhas ⟨.deny, .hostFrom x.1 x.2.1 x.2.2⟩
  · exact Finset.ext fun x => hhas ⟨.deny, .destFrom x.1 x.2.1 x.2.2⟩
  · exact hprompt
  · exact funext happ
  · exact hmode
  · exact hattribution

/-! ## the file as bytes -/

omit [Casing] in
/-- `fs::read_to_string` on the policy file, which may be absent. -/
def readToString (file : Option (List UInt8)) : Option Str := file.bind decodeUtf8

omit [Casing] in
/-- An absent file is one without text. -/
theorem readToString_getD {file : Option (List UInt8)} {text : Str}
    (h : decodeUtf8 (file.getD []) = some text) : (readToString file).getD [] = text := by
  cases file with
  | none => exact Option.some.inj h
  | some bytes =>
      rw [readToString, Option.bind_some]
      exact Option.getD_eq_iff.mpr (.inl h)

omit [Casing] in
/-- A file that is not text is not read. -/
theorem readToString_eq_none {file : Option (List UInt8)} (h : decodeUtf8 (file.getD []) = none) :
    readToString file = none := by
  cases file with
  | none => rfl
  | some bytes => exact h

omit [Casing] in
/-- A file is read after an append if it was text before. -/
theorem readToString_append (file : Option (List UInt8)) (t : Str) :
    readToString (some (file.getD [] ++ utf8Bytes t)) =
      (decodeUtf8 (file.getD [])).map (· ++ t) := decodeUtf8_append _ _

omit [Casing] in
theorem textLines_of_decode {file : Option (List UInt8)} {text : Str}
    (h : decodeUtf8 (file.getD []) = some text) : textLines (readToString file) = lines text := by
  rw [textLines_eq, readToString_getD h]

/-- `Policy::load` on the file as it is stored. -/
def Policy.loadFile (file : Option (List UInt8)) : Policy := .load (readToString file)

/-- A file of bytes that is text and ends in a newline, if it is not empty. -/
def EndsInNewline (file : Option (List UInt8)) : Prop :=
  ∃ text, decodeUtf8 (file.getD []) = some text ∧ NewlineTerminated text

omit [Casing] in
/-- `writeln!` on the file as it is stored: the file is created when it is not there, and
what it holds is not looked at. -/
def appendBytes (file : Option (List UInt8)) (line : Str) : List UInt8 :=
  file.getD [] ++ utf8Bytes (line ++ ['\n'])

omit [Casing] in
/-- Append lines one by one; a line whose file cannot be opened is lost. -/
def appendLines (appendOk : Str → Bool) (file : Option (List UInt8)) (ls : List Str) :
    Option (List UInt8) :=
  ls.foldl (fun f l => if appendOk l then some (appendBytes f l) else f) file

omit [Casing] in
theorem endsInNewline_appendBytes {file : Option (List UInt8)} (h : EndsInNewline file) (l : Str) :
    EndsInNewline (some (appendBytes file l)) := by
  obtain ⟨text, htext, -⟩ := h
  refine ⟨text ++ (l ++ ['\n']), ?_, ?_⟩
  · rw [Option.getD_some, appendBytes, decodeUtf8_append, htext, Option.map_some]
  · rw [← List.append_assoc]
    exact newlineTerminated_append_line _ _

omit [Casing] in
theorem appendLines_append (appendOk : Str → Bool) (file : Option (List UInt8))
    (ls ls' : List Str) : appendLines appendOk file (ls ++ ls') =
      appendLines appendOk (appendLines appendOk file ls) ls' := List.foldl_append

omit [Casing] in
/-- How writing a file ends: it is written, or the call fails and leaves this. -/
inductive WriteResult
  | written
  | failed (left : Option (List UInt8))
deriving DecidableEq

omit [Casing] in
/-- Bytes that end in a newline are those of a text that does. -/
theorem terminated_utf8Bytes {s : Str} : Terminated 10 (utf8Bytes s) ↔ NewlineTerminated s := by
  constructor
  · rintro (h | ⟨u, h⟩)
    · cases s with
      | nil => exact .inl rfl
      | cons c s =>
          obtain ⟨b, bs, hbs, -⟩ := lossyHead_encode c
          simp [utf8Bytes, hbs] at h
    · have hdec := decodeUtf8_newline u []
      rw [← h, decodeUtf8_utf8Bytes] at hdec
      obtain ⟨t, -, ht⟩ := Option.bind_eq_some_iff.mp hdec.symm
      exact .inr ⟨t, by simpa [show decodeUtf8 [] = some [] from rfl, eq_comm] using ht⟩
  · rintro (rfl | ⟨t, rfl⟩)
    · exact .inl rfl
    · rw [utf8Bytes_append]
      exact terminated_concat _

omit [Casing] in
/-- The newline byte comes from a newline only. -/
theorem newline_mem_utf8Bytes {s : Str} : 10 ∈ utf8Bytes s ↔ '\n' ∈ s := by
  have hnewline : utf8Bytes ['\n'] = [10] := rfl
  constructor
  · intro h
    obtain ⟨a, b, hs⟩ := List.append_of_mem h
    have hdec := decodeUtf8_newline a b
    rw [← hs, decodeUtf8_utf8Bytes] at hdec
    obtain ⟨t, -, ht⟩ := Option.bind_eq_some_iff.mp hdec.symm
    obtain ⟨u, -, rfl⟩ := Option.map_eq_some_iff.mp ht
    simp
  · intro h
    obtain ⟨a, b, rfl⟩ := List.append_of_mem h
    rw [List.append_cons, utf8Bytes_append, utf8Bytes_append, hnewline]
    simp

omit [Casing] in
theorem utf8Bytes_newline (s t : Str) : utf8Bytes (s ++ '\n' :: t) = utf8Bytes s ++ 10 :: utf8Bytes t :=
  utf8Bytes_append s ('\n' :: t)

omit [Casing] in
theorem utf8Bytes_inj {s t : Str} (h : utf8Bytes s = utf8Bytes t) : s = t := by
  have hdec := congrArg decodeUtf8 h
  rw [decodeUtf8_utf8Bytes, decodeUtf8_utf8Bytes] at hdec
  exact Option.some.inj hdec

omit [Casing] in
/-- The lines of a text as they are stored. -/
theorem pieces_utf8Bytes (s : Str) : pieces 10 (utf8Bytes s) = (pieces '\n' s).map utf8Bytes := by
  induction s using piecesInduction '\n' with
  | nil => rfl
  | last l hl hne =>
      rw [pieces_last hl hne, pieces_last (mt newline_mem_utf8Bytes.mp hl), List.map_singleton]
      exact fun h => hne (utf8Bytes_inj h)
  | piece l s hl ih =>
      rw [utf8Bytes_newline, pieces_append_sep hl, pieces_append_sep (mt newline_mem_utf8Bytes.mp hl),
        ih, List.map_cons]

omit [Casing] in
theorem endedPieces_utf8Bytes (s : Str) :
    endedPieces 10 (utf8Bytes s) = (endedPieces '\n' s).map utf8Bytes := by
  induction s using piecesInduction '\n' with
  | nil => rfl
  | last l hl hne =>
      rw [endedPieces_last hl, endedPieces_last (mt newline_mem_utf8Bytes.mp hl), List.map_nil]
  | piece l s hl ih =>
      rw [utf8Bytes_newline, endedPieces_append_sep hl,
        endedPieces_append_sep (mt newline_mem_utf8Bytes.mp hl), ih, List.map_cons]

omit [Casing] in
/-- A line that ends in a carriage return is the one that loses it. -/
theorem stripCr_eq_iff {l : Str} : stripCr l = l ↔ (utf8Bytes l).getLast? ≠ some 13 := by
  obtain h | h := stripCr_cases l
  · refine iff_of_true h fun hlast => ?_
    obtain ⟨a, ha⟩ := List.getLast?_eq_some_iff.mp hlast
    obtain ⟨t, u, rfl, -, hu⟩ := utf8Bytes_eq_append ha (by rintro x ⟨⟩; decide)
    obtain rfl : ['\r'] = u := utf8Bytes_inj hu
    have hlen := congrArg List.length h
    simp [stripCr] at hlen
  · refine iff_of_false (fun heq => ?_) fun hne => hne ?_
    · have hlen := congrArg List.length h
      rw [heq, List.length_append, List.length_singleton] at hlen
      omega
    · rw [h, utf8Bytes_append]
      exact List.getLast?_concat

end Pfsnitch
