import Pfsnitch.Policy.Contents

/-!
# Pfsnitch.Appends

What an append does to the lines before it.

`add_rule`, `record` and `record_id` write their text at the end of the file and do
not look at what the file ends with.  After a file that ends in a newline the text
makes lines of its own (`append_keeps_lines_iff`); otherwise the last line goes on
with it.
-/

namespace Pfsnitch

open Lib

/-- What the tools and `load` read on a line. -/
def lineReading (raw : Str) : Option Rule × Option (Keyword × Str) := (parseLine raw, directive raw)

/-- What is read on the lines of a file, in order; bytes that are no text have none. -/
def readings (file : Option (List UInt8)) : List (Option Rule × Option (Keyword × Str)) :=
  (textLines (readToString file)).map lineReading

variable [Casing] {op : Edit} {file : Option (List UInt8)} {l : Str}

/-- `add_rule`, `record` and `record_id` on the file as it is stored: they check it as
text, if it is text, and append bytes. -/
def Edit.append (op : Edit) (file : Option (List UInt8)) : Returned × Option (List UInt8) :=
  let ret := (op.run (readToString file)).1
  match op.line ret with
  | some l => (ret, some (file.getD [] ++ utf8Bytes (l ++ ['\n'])))
  | none => (ret, file)

theorem Edit.append_fst : (op.append file).1 = (op.run (readToString file)).1 := by
  simp only [append]
  split <;> rfl

theorem Edit.append_snd (hl : op.line (op.append file).1 = some l) :
    (op.append file).2 = some (file.getD [] ++ utf8Bytes (l ++ ['\n'])) := by
  rw [append_fst] at hl
  simp only [append, hl]

/-- On a file that is text, an append writes what it does there. -/
theorem Edit.append_refines (hl : op.line (op.append file).1 = some l) {text : Str}
    (htext : decodeUtf8 (file.getD []) = some text) :
    readToString (op.append file).2 = (op.run (readToString file)).2 := by
  rw [append_snd hl]
  rw [append_fst] at hl
  rw [run_line hl, readToString_append, htext, appendLine, readToString_getD htext]
  simp

omit [Casing] in
theorem readings_of_decode {text : Str} (htext : decodeUtf8 (file.getD []) = some text) :
    readings file = (lines text).map lineReading := by
  rw [readings, textLines_of_decode htext]

/-- An append leaves every line before it as it was and makes lines of its own, exactly
when the file is text that is empty or ends in a newline. -/
theorem append_keeps_lines_iff (h : op.line (op.append file).1 = some l) :
    readings (op.append file).2 = readings file ++ readings (some (utf8Bytes (l ++ ['\n']))) ↔
      EndsInNewline file := by
  have hown : readings (some (utf8Bytes (l ++ ['\n']))) = (lines (l ++ ['\n'])).map lineReading :=
    readings_of_decode (decodeUtf8_utf8Bytes _)
  have hne : (l ++ ['\n']) ≠ [] := by simp
  rw [Edit.append_snd h, hown]
  cases hdec : decodeUtf8 (file.getD []) with
  | none =>
      -- the file is not read, before or after
      have hnew : readings (some (file.getD [] ++ utf8Bytes (l ++ ['\n']))) = [] := by
        rw [readings, readToString_append, hdec]
        rfl
      rw [hnew]
      constructor
      · intro heq
        have hlen := congrArg List.length heq
        have hpos : 0 < (pieces '\n' (l ++ ['\n'])).length :=
          List.length_pos_iff.mpr (pieces_ne_nil hne)
        simp only [List.length_append, List.length_map, length_lines, List.length_nil] at hlen
        omega
      · rintro ⟨text, htext, -⟩
        rw [hdec] at htext
        cases htext
  | some text =>
      have hnew : readings (some (file.getD [] ++ utf8Bytes (l ++ ['\n']))) =
          (lines (text ++ (l ++ ['\n']))).map lineReading :=
        readings_of_decode (by rw [Option.getD_some, decodeUtf8_append, hdec]; rfl)
      rw [hnew, readings_of_decode hdec]
      constructor
      · intro heq
        refine ⟨text, hdec, ?_⟩
        by_contra hterm
        have hlen := congrArg List.length heq
        have hmerge : (pieces '\n' (text ++ (l ++ ['\n']))).length + 1 =
            (pieces '\n' text).length + (pieces '\n' (l ++ ['\n'])).length :=
          length_pieces_append hterm hne
        simp only [List.length_append, List.length_map, length_lines] at hlen
        omega
      · rintro ⟨text', htext', hterm⟩
        obtain rfl := Option.some.inj (hdec.symm.trans htext')
        rw [lines_append hterm, List.map_append]

omit [Casing] in
/-- `deny-app /a` after a `default deny` with its newline. -/
theorem append_keeps_lines_default :
    letI := asciiCasing
    let op : Edit := .addRule Keyword.denyApp.text "/a".toList none
    let file := some (utf8Bytes "default deny\n".toList)
    readings (op.append file).2 =
      readings file ++ readings (some (utf8Bytes "deny-app /a\n".toList)) := by
  let _ := asciiCasing
  intro op file
  have hterm : EndsInNewline file :=
    ⟨_, decodeUtf8_utf8Bytes "default deny\n".toList, .inr ⟨"default deny".toList, rfl⟩⟩
  exact (append_keeps_lines_iff (l := "deny-app /a".toList) (by decide +kernel)).mpr hterm

omit [Casing] in
/-- `allow-app /a` after a `default deny` without its newline: the default is gone, and
everything is asked about. -/
theorem append_merges_default :
    letI := asciiCasing
    (¬ ∀ (op : Edit) (file : Option (List UInt8)) (l : Str),
      op.line (op.append file).1 = some l → readings (op.append file).2 =
        readings file ++ readings (some (utf8Bytes (l ++ ['\n'])))) ∧
    let file := some (utf8Bytes "default deny".toList)
    let file' := ((Edit.addRule Keyword.allowApp.text "/a".toList none).append file).2
    (Policy.loadFile file).default = some .deny ∧ (Policy.loadFile file').default = some .ask ∧
      "/a".toList ∉ (Policy.loadFile file').allowApp := by
  let _ := asciiCasing
  constructor
  · intro h
    have heq := h (.addRule Keyword.allowApp.text "/a".toList none)
      (some (utf8Bytes "default deny".toList)) "allow-app /a".toList (by decide +kernel)
    exact absurd heq (by decide +kernel)
  · decide +kernel

end Pfsnitch
