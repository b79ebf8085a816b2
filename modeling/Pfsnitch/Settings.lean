import Pfsnitch.Policy.Contents

/-!
# Pfsnitch.Settings

Switching a setting: `set_mode` and `set_attribution` on the policy file as it is
stored.

The file is rewritten from what `read_to_string` gives, and a file that it rejects
gives nothing: then the setting is all that is left.  Otherwise the other lines are
written out again as `lines` gives them, without their carriage returns
(`switch_keeps_iff`).
-/

namespace Pfsnitch

open Lib

/-- What `set_mode` and `set_attribution` set. -/
inductive Setting
  | mode (m : Mode)
  | attribution (a : AttributionMode)
deriving DecidableEq

/-- What the file system does in a call: the file can be read, and the temporary file
can be written and renamed. -/
structure FileOps where
  read : Bool
  write : Bool
deriving DecidableEq

namespace Setting

def keyword : Setting → Keyword
  | .mode _ => .mode
  | .attribution _ => .attribution

def value : Setting → Str
  | .mode m => m.asStr
  | .attribution a => a.asStr

/-- `set_mode` and `set_attribution`: the text they write. -/
def set : Setting → Str → Str
  | .mode m => setMode m
  | .attribution a => setAttribution a

/-- The setting on its own line. -/
def line (x : Setting) : Str := x.keyword.text ++ ' ' :: x.value

/-- The policy with this setting changed. -/
def apply (x : Setting) (p : Policy) : Policy :=
  match x with
  | .mode m => { p with mode := some m }
  | .attribution a => { p with attribution := some a }

/-- A line of the setting, as it is stored. -/
def isLine (x : Setting) (l : List UInt8) : Bool :=
  (decodeUtf8 l).any (isDirective x.keyword.text)

/-- The call on the file as it is stored: whether it succeeds, and the file it leaves. -/
def switch (x : Setting) (ops : FileOps) (file : Option (List UInt8)) : Bool × Option (List UInt8) :=
  let text := (if ops.read then readToString file else none).getD []
  if ops.write then (true, some (utf8Bytes (x.set text))) else (false, file)

/-- The file has one line of the setting, with the new value; the other lines are as they
were, and the policy differs in the setting alone. -/
structure Switched [Casing] (x : Setting) (old new : List UInt8) : Prop where
  one : (pieces 10 new).filter x.isLine = [utf8Bytes x.line]
  others : (pieces 10 new).filter (!x.isLine ·) = (pieces 10 old).filter (!x.isLine ·)
  load : Policy.loadFile (some new) = x.apply (Policy.loadFile (some old))

/-- The call fails; or there are only lines of the setting; or the file can be read, it is
text, and none of the other lines ends in a carriage return and a newline. -/
def Switchable (x : Setting) (ops : FileOps) (old : List UInt8) : Prop :=
  ops.write = false ∨ (∀ l ∈ pieces 10 old, x.isLine l = true) ∨
    ops.read = true ∧ (decodeUtf8 old).isSome ∧
      ∀ l ∈ endedPieces 10 old, x.isLine l = false → l.getLast? ≠ some 13

theorem set_eq (x : Setting) (text : Str) : x.set text = setDirective x.keyword.text x.value text := by
  cases x <;> rfl

theorem isDirective_line (x : Setting) : isDirective x.keyword.text x.line = true := by
  rcases x with (_ | _) | (_ | _) <;> decide

theorem newline_not_mem_line (x : Setting) : '\n' ∉ x.line := by
  rcases x with (_ | _) | (_ | _) <;> decide

end Setting

/-! ## lines of a directive -/

variable {key raw : Str} {k : Keyword} {v : Str}

theorem isDirective_stripCr (key raw : Str) : isDirective key (stripCr raw) = isDirective key raw := by
  rw [isDirective, isDirective, parseLine_stripCr]

/-- `load` reads the directive on its lines. -/
theorem directive_of_isDirective (h : isDirective k.text raw = true) :
    ∃ v, directive raw = some (k, v) := by
  cases hr : parseLine raw with
  | none =>
      rw [isDirective, hr] at h
      cases h
  | some r =>
      rw [isDirective, hr, Option.any_some, beq_iff_eq] at h
      rw [directive_of_parseLine hr, h, Keyword.ofText_text]
      exact ⟨r.value, rfl⟩

/-- A line on which `load` reads the directive with a value is one of its lines. -/
theorem isDirective_of_directive (h : directive raw = some (k, v)) (hv : v ≠ []) :
    isDirective k.text raw = true := by
  obtain ⟨r, hr, hkind, -⟩ := parseLine_of_directive h hv
  rw [isDirective, hr, Option.any_some, hkind, beq_self_eq_true]

/-- On a line that is not one of its lines, `load` reads the directive without a value. -/
theorem value_of_not_isDirective (h : isDirective k.text raw = false)
    (hd : directive raw = some (k, v)) : v = [] := by
  by_contra hv
  rw [isDirective_of_directive hd hv] at h
  cases h

/-! ## what the rewrite makes of the lines -/

/-- What the lines of a directive do not give is given by the others. -/
theorem filterMap_others {β : Type} {f : Str → Option β}
    (hf : ∀ l, isDirective key l = true → f l = none) (ls : List Str) :
    (ls.filter (!isDirective key ·)).filterMap f = ls.filterMap f := by
  rw [List.filterMap_filter]
  congr 1
  funext l
  cases hl : isDirective key l with
  | true => exact (hf l hl).symm
  | false => rfl

/-- What only the lines of a directive give. -/
theorem filterMap_own {β : Type} {f : Str → Option β}
    (hf : ∀ l, isDirective key l = false → f l = none) (ls : List Str) :
    (ls.filter (isDirective key)).filterMap f = ls.filterMap f := by
  rw [List.filterMap_filter]
  congr 1
  funext l
  cases hl : isDirective key l with
  | true => rfl
  | false => exact (hf l hl).symm

/-- The lines that a rewrite leaves in the file. -/
theorem Setting.pieces_set (x : Setting) (text : Str) :
    (pieces '\n' (x.set text)).filter (isDirective x.keyword.text) = [x.line] ∧
    (pieces '\n' (x.set text)).filter (!isDirective x.keyword.text ·) =
      (lines text).filter (!isDirective x.keyword.text ·) := by
  obtain ⟨ls, hls, hother, hone⟩ := setDirective_eq x.isDirective_line text
  have hpieces : pieces '\n' (x.set text) = ls := by
    rw [set_eq, hls]
    refine pieces_unpieces fun l hl => ?_
    obtain h | h := (redirected_of_filter hother hone).1 l hl
    · exact newline_not_mem_of_mem_lines h
    · exact h ▸ x.newline_not_mem_line
  rw [hpieces]
  exact ⟨hone, hother⟩

/-! ## what the rewrite makes of the policy -/

variable [Casing]

omit [Casing] in
theorem Setting.has_apply {x : Setting} {p : Policy} {e : Entry} : (x.apply p).Has e ↔ p.Has e := by
  cases x <;> rcases e with ⟨_ | _, _ | _ | _ | _ | _⟩ <;> rfl

theorem Mode.parse_asStr (m : Mode) : Mode.parse m.asStr = some m := by
  have hlow : lower (trim m.asStr) = m.asStr := by
    rw [Casing.lower_ascii _ (by cases m <;> decide)]
    cases m <;> decide
  unfold Mode.parse
  rw [hlow]
  cases m <;> decide

theorem AttributionMode.parse_asStr (a : AttributionMode) : AttributionMode.parse a.asStr = some a := by
  have hlow : lower (trim a.asStr) = a.asStr := by
    rw [Casing.lower_ascii _ (by cases a <;> decide)]
    cases a <;> decide
  unfold AttributionMode.parse
  rw [hlow]
  cases a <;> decide

omit [Casing] in
theorem Setting.directive_line (x : Setting) : directive x.line = some (x.keyword, x.value) := by
  rcases x with (_ | _) | (_ | _) <;> decide +kernel

theorem lineMode_line (m : Mode) : lineMode (Setting.mode m).line = some m := by
  unfold lineMode
  rw [Setting.directive_line]
  exact m.parse_asStr

theorem lineAttribution_line (a : AttributionMode) :
    lineAttribution (Setting.attribution a).line = some a := by
  unfold lineAttribution
  rw [Setting.directive_line]
  exact a.parse_asStr

/-- Lines of a directive that is a setting give nothing else. -/
theorem lineEntry_of_isDirective (x : Setting) (h : isDirective x.keyword.text raw = true) :
    lineEntry raw = none ∧ lineDefault raw = none ∧ linePrompt raw = none ∧
      ∀ exe, linePin exe raw = none := by
  obtain ⟨v, hv⟩ := directive_of_isDirective h
  rw [lineEntry, lineDefault, linePrompt, hv]
  cases x <;> simp [Setting.keyword, Keyword.denotes, linePin, hv]

theorem lower_trim_nil : lower (trim ([] : Str)) = [] := Casing.lower_ascii [] (by simp)

/-- Only the lines of `mode` set the mode. -/
theorem lineMode_of_not_isDirective (h : isDirective Keyword.mode.text raw = false) :
    lineMode raw = none := by
  unfold lineMode
  split
  · rename_i v hd
    rw [value_of_not_isDirective h hd, Mode.parse, lower_trim_nil]
    decide
  · rfl

theorem lineAttribution_of_not_isDirective (h : isDirective Keyword.attribution.text raw = false) :
    lineAttribution raw = none := by
  unfold lineAttribution
  split
  · rename_i v hd
    rw [value_of_not_isDirective h hd, AttributionMode.parse, lower_trim_nil]
    decide
  · rfl

theorem lineAttribution_of_isDirective (h : isDirective Keyword.mode.text raw = true) :
    lineAttribution raw = none := by
  obtain ⟨v, hv⟩ := directive_of_isDirective h
  simp [lineAttribution, hv]

theorem lineMode_of_isDirective (h : isDirective Keyword.attribution.text raw = true) :
    lineMode raw = none := by
  obtain ⟨v, hv⟩ := directive_of_isDirective h
  simp [lineMode, hv]

/-- With the other lines as they were and one line of the setting, the policy differs in
the setting alone. -/
theorem ofLines_switch (x : Setting) {ls ls' : List Str}
    (hone : ls.filter (isDirective x.keyword.text) = [x.line])
    (hother : ls.filter (!isDirective x.keyword.text ·) =
      ls'.filter (!isDirective x.keyword.text ·)) :
    Policy.ofLines ls = x.apply (.ofLines ls') := by
  have hsame {β : Type} {f : Str → Option β}
      (hf : ∀ l, isDirective x.keyword.text l = true → f l = none) :
      ls.filterMap f = ls'.filterMap f := by
    rw [← filterMap_others hf ls, hother, filterMap_others hf ls']
  have hown {β : Type} {f : Str → Option β}
      (hf : ∀ l, isDirective x.keyword.text l = false → f l = none) :
      ls.filterMap f = [x.line].filterMap f := by
    rw [← filterMap_own hf ls, hone]
  have hhas (e : Entry) : (Policy.ofLines ls).Has e ↔ (Policy.ofLines ls').Has e := by
    rw [Policy.has_ofLines, Policy.has_ofLines, ← List.mem_filterMap, ← List.mem_filterMap,
      hsame fun l hl => (lineEntry_of_isDirective x hl).1]
  have hdefault : (Policy.ofLines ls).default = (Policy.ofLines ls').default := by
    rw [Policy.default_ofLines, Policy.default_ofLines, lastDefault, lastDefault,
      hsame fun l hl => (lineEntry_of_isDirective x hl).2.1]
  have hprompt : (Policy.ofLines ls).prompt = (Policy.ofLines ls').prompt := by
    rw [Policy.prompt_ofLines, Policy.prompt_ofLines,
      hsame fun l hl => (lineEntry_of_isDirective x hl).2.2.1]
  have hpin (exe : Str) : (Policy.ofLines ls).appId exe = (Policy.ofLines ls').appId exe := by
    rw [Policy.appId_ofLines, Policy.appId_ofLines,
      hsame fun l hl => (lineEntry_of_isDirective x hl).2.2.2 exe]
  cases x with
  | mode m =>
      refine Policy.ext_has (fun e => (hhas e).trans Setting.has_apply.symm) hdefault hprompt hpin ?_ ?_
      · rw [Policy.mode_ofLines, hown fun l hl => lineMode_of_not_isDirective hl]
        simp [lineMode_line, Setting.apply]
      · rw [Policy.attribution_ofLines, hsame fun l hl => lineAttribution_of_isDirective hl]
        exact (Policy.attribution_ofLines ls').symm
  | attribution a =>
      refine Policy.ext_has (fun e => (hhas e).trans Setting.has_apply.symm) hdefault hprompt hpin ?_ ?_
      · rw [Policy.mode_ofLines, hsame fun l hl => lineMode_of_isDirective hl]
        exact (Policy.mode_ofLines ls').symm
      · rw [Policy.attribution_ofLines, hown fun l hl => lineAttribution_of_not_isDirective hl]
        simp [lineAttribution_line, Setting.apply]

/-- What is loaded from a text does not depend on its carriage returns. -/
theorem Policy.ofLines_lines (s : Str) : Policy.ofLines (lines s) = .ofLines (pieces '\n' s) := by
  let load (p : Policy) : Option (Keyword × Str) → Policy
    | some d => p.apply d.1 d.2
    | none => p
  have hmap (ls : List Str) : Policy.ofLines ls = (ls.map directive).foldl load .initial := by
    rw [ofLines, List.foldl_map]
    congr 1
    funext p raw
    rw [loadLine]
    cases directive raw <;> rfl
  rw [hmap, hmap, map_lines directive_stripCr]

/-! ## the file as bytes -/

namespace Setting

variable {x : Setting} {ops : FileOps} {old : List UInt8}

omit [Casing] in
@[simp] theorem isLine_utf8Bytes (x : Setting) (l : Str) :
    x.isLine (utf8Bytes l) = isDirective x.keyword.text l := by
  rw [isLine, decodeUtf8_utf8Bytes, Option.any_some]

omit [Casing] in
/-- The text that a call starts from. -/
theorem switch_eq (x : Setting) (ops : FileOps) (old : List UInt8) :
    x.switch ops (some old) = if ops.write then
      (true, some (utf8Bytes (x.set ((if ops.read then decodeUtf8 old else none).getD []))))
      else (false, some old) := rfl

omit [Casing] in
/-- The other lines of what is read are those of the file, when the file is read and they
have no carriage returns, or when there are none. -/
theorem others_iff (hwrite : ops.write = true) :
    (((lines ((if ops.read then decodeUtf8 old else none).getD [])).filter
      (!isDirective x.keyword.text ·)).map utf8Bytes = (pieces 10 old).filter (!x.isLine ·)) ↔
      x.Switchable ops old := by
  have hnone : (pieces 10 old).filter (!x.isLine ·) = [] ↔ ∀ l ∈ pieces 10 old, x.isLine l = true := by
    simp [List.filter_eq_nil_iff]
  rw [Switchable, hwrite]
  simp only [Bool.true_eq_false, false_or]
  by_cases hread : ops.read = true ∧ (decodeUtf8 old).isSome
  · obtain ⟨t, ht⟩ := Option.isSome_iff_exists.mp hread.2
    obtain rfl := decodeUtf8_eq_some.mp ht
    have hkeep (l : Str) : (!isDirective x.keyword.text (stripCr l)) = !isDirective x.keyword.text l := by
      rw [isDirective_stripCr]
    have hmap : (pieces 10 (utf8Bytes t)).filter (!x.isLine ·) =
        ((pieces '\n' t).filter (!isDirective x.keyword.text ·)).map utf8Bytes := by
      rw [pieces_utf8Bytes, List.filter_map]
      congr 2
      funext l
      simp
    have hinj : Function.Injective utf8Bytes := fun _ _ => utf8Bytes_inj
    rw [hmap, if_pos hread.1, ht, Option.getD_some, (List.map_injective_iff.mpr hinj).eq_iff,
      filter_lines_eq_iff hkeep, pieces_utf8Bytes, endedPieces_utf8Bytes]
    simp only [List.forall_mem_map, isLine_utf8Bytes, Bool.not_eq_true', stripCr_eq_iff, hread.1,
      Option.isSome_some, true_and]
    constructor
    · exact .inr
    · rintro (hall | hcr) l hl hl'
      · rw [hall l (mem_pieces_of_mem_endedPieces hl)] at hl'
        cases hl'
      · exact hcr l hl hl'
  · have htext : (if ops.read then decodeUtf8 old else none) = none := by
      split
      · rename_i h
        simpa [h] using hread
      · rfl
    rw [htext, Option.getD_none, lines_nil, List.filter_nil, List.map_nil, eq_comm, hnone]
    constructor
    · exact .inl
    · rintro (hall | ⟨h₁, h₂, -⟩)
      · exact hall
      · exact absurd ⟨h₁, h₂⟩ hread

omit [Casing] in
/-- The other lines of what is read are those that `load` reads. -/
theorem Switchable.others (h : x.Switchable ops old) (hwrite : ops.write = true) :
    (lines ((if ops.read then decodeUtf8 old else none).getD [])).filter
      (!isDirective x.keyword.text ·) =
    (textLines (readToString (some old))).filter (!isDirective x.keyword.text ·) := by
  rw [readToString, Option.bind_some]
  cases hdec : decodeUtf8 old with
  | none => simp [textLines]
  | some t =>
      by_cases hread : ops.read = true
      · rw [if_pos hread, Option.getD_some, textLines]
      · rw [if_neg hread, Option.getD_none, lines_nil, List.filter_nil, textLines]
        obtain h | hall | ⟨h, -⟩ := h
        · exact absurd hwrite (by simp [h])
        · obtain rfl := decodeUtf8_eq_some.mp hdec
          rw [pieces_utf8Bytes] at hall
          simp only [List.forall_mem_map, isLine_utf8Bytes] at hall
          symm
          rw [List.filter_eq_nil_iff]
          intro l hl
          have hmem : isDirective x.keyword.text l ∈ (lines t).map (isDirective x.keyword.text) :=
            List.mem_map_of_mem hl
          rw [map_lines (isDirective_stripCr _)] at hmem
          obtain ⟨l', hl', heq⟩ := List.mem_map.mp hmem
          simp [← heq, hall l' hl']
        · exact absurd h hread

/-- **Switching a setting** fails and leaves the file, or leaves one line of the setting
and the rest of the file and of the policy as they were, exactly when writing fails, or
there is no other line, or the file is read as text and no other line ends in a carriage
return and a newline. -/
theorem switch_keeps_iff (x : Setting) (ops : FileOps) (old : List UInt8) :
    (x.switch ops (some old) = (false, some old) ∨
      ∃ new, x.switch ops (some old) = (true, some new) ∧ x.Switched old new) ↔
    x.Switchable ops old := by
  rw [switch_eq]
  cases hwrite : ops.write with
  | false => simp [Switchable, hwrite]
  | true =>
      have hiff := @others_iff x ops old hwrite
      have hload := @Switchable.others x ops old
      generalize (if ops.read then decodeUtf8 old else none).getD [] = text at hiff hload
      have hline (p : Bool → Bool) : (pieces 10 (utf8Bytes (x.set text))).filter (p ∘ x.isLine) =
          ((pieces '\n' (x.set text)).filter (p ∘ isDirective x.keyword.text)).map utf8Bytes := by
        rw [pieces_utf8Bytes, List.filter_map]
        congr 2
        funext l
        simp
      obtain ⟨hone, hother⟩ := x.pieces_set text
      have hothers : (pieces 10 (utf8Bytes (x.set text))).filter (!x.isLine ·) =
          ((lines text).filter (!isDirective x.keyword.text ·)).map utf8Bytes := by
        rw [← hother]
        exact hline (!·)
      simp only [if_true, Prod.mk.injEq, Bool.true_eq_false, false_and, false_or, true_and,
        Option.some.injEq, exists_eq_left']
      rw [← hiff, ← hothers]
      constructor
      · intro h
        exact h.others
      · intro h
        refine ⟨?_, h, ?_⟩
        · have hid := hline id
          rw [Function.id_comp, Function.id_comp, hone, List.map_singleton] at hid
          exact hid
        · have hsw : x.Switchable ops old := hiff.mp (hothers.symm.trans h)
          rw [Policy.loadFile, Policy.loadFile, Policy.load_eq, Policy.load_eq, readToString,
            Option.bind_some, decodeUtf8_utf8Bytes, textLines, Policy.ofLines_lines]
          exact ofLines_switch x hone (hother.trans (hload hsw hwrite))

omit [Casing] in
/-- A byte that is no text in a comment: switching to enforcement leaves nothing else of
the policy, so that `/a` is not denied any more. -/
theorem switch_loses_policy :
    letI := asciiCasing
    (¬ ∀ (x : Setting) (ops : FileOps) (old : List UInt8),
      x.switch ops (some old) = (false, some old) ∨
        ∃ new, x.switch ops (some old) = (true, some new) ∧ x.Switched old new) ∧
    (Setting.mode .enforcement).switch ⟨true, true⟩
      (some ([35, 0xE9, 10] ++ utf8Bytes "deny-app /a\n".toList)) =
        (true, some (utf8Bytes "mode enforcement\n".toList)) := by
  let _ := asciiCasing
  have hrun : (Setting.mode .enforcement).switch ⟨true, true⟩
      (some ([35, 0xE9, 10] ++ utf8Bytes "deny-app /a\n".toList)) =
        (true, some (utf8Bytes "mode enforcement\n".toList)) := by decide +kernel
  refine ⟨fun h => ?_, hrun⟩
  obtain h | ⟨new, hnew, hsw⟩ := h (.mode .enforcement) ⟨true, true⟩
    ([35, 0xE9, 10] ++ utf8Bytes "deny-app /a\n".toList)
  · rw [hrun] at h
    cases h
  · rw [hrun] at hnew
    obtain rfl := Option.some.inj (Prod.mk.inj hnew).2
    exact absurd hsw.others (by decide +kernel)

end Setting

end Pfsnitch
