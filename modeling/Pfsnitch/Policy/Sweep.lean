import Pfsnitch.Policy.Contents

/-!
# Pfsnitch.Policy.Sweep

What a removal leaves of the policy file.  The lines that it does not hit are written
out again; when it hits none, the file stays as it is.  Either way the text gives what
those lines give (`filterMap_lines_sweepLeaves`).
-/

namespace Pfsnitch

open Lib

/-- A line that a removal hits. -/
def hitLine (hit : Rule → Bool) (raw : Str) : Bool := (parseLine raw).any hit

/-- The text that a removal leaves. -/
def sweepLeaves (hit : Rule → Bool) (text : Str) : Str :=
  (Edit.swept (sweep hit text)).1.getD text

variable {hit : Rule → Bool} {text raw : Str}

theorem hitLine_stripCr (raw : Str) : hitLine hit (stripCr raw) = hitLine hit raw := by
  rw [hitLine, hitLine, parseLine_stripCr]

theorem sweep_hitLine (hit : Rule → Bool) (text : Str) :
    sweep hit text = (unlines ((lines text).filter (!hitLine hit ·)),
      (lines text).countP (hitLine hit)) :=
  sweep_eq hit text

theorem sweepLeaves_of_pos (h : 0 < (lines text).countP (hitLine hit)) :
    sweepLeaves hit text = unlines ((lines text).filter (!hitLine hit ·)) := by
  rw [sweepLeaves, Edit.swept, sweep_hitLine]
  simp only [gt_iff_lt, h, if_true, Option.getD_some]

theorem sweepLeaves_of_zero (h : (lines text).countP (hitLine hit) = 0) :
    sweepLeaves hit text = text := by
  rw [sweepLeaves, Edit.swept, sweep_hitLine]
  simp only [h, gt_iff_lt, lt_irrefl, if_false, Option.getD_none]

/-- The lines that are left, as the removal writes them. -/
theorem pieces_sweepLeaves (h : 0 < (lines text).countP (hitLine hit)) :
    pieces '\n' (sweepLeaves hit text) = (lines text).filter (!hitLine hit ·) := by
  rw [sweepLeaves_of_pos h]
  exact pieces_unpieces fun l hl => newline_not_mem_of_mem_lines (List.mem_filter.mp hl).1

/-- What does not look at a carriage return at the end sees the lines that are not hit. -/
theorem map_lines_sweepLeaves {β : Type} {f : Str → β} (hf : ∀ l, f (stripCr l) = f l) :
    (lines (sweepLeaves hit text)).map f = ((lines text).filter (!hitLine hit ·)).map f := by
  obtain h | h := Nat.eq_zero_or_pos ((lines text).countP (hitLine hit))
  · have hall : (lines text).filter (!hitLine hit ·) = lines text := by
      rw [List.filter_eq_self]
      intro l hl
      simpa using List.countP_eq_zero.mp h l hl
    rw [sweepLeaves_of_zero h, hall]
  · rw [map_lines hf, pieces_sweepLeaves h]

theorem filterMap_lines_sweepLeaves {β : Type} {f : Str → Option β}
    (hf : ∀ l, f (stripCr l) = f l) : (lines (sweepLeaves hit text)).filterMap f =
      ((lines text).filter (!hitLine hit ·)).filterMap f := by
  have hmap : (lines (sweepLeaves hit text)).map f =
      ((lines text).filter (!hitLine hit ·)).map f := map_lines_sweepLeaves hf
  simpa [List.filterMap_map] using congrArg (List.filterMap id) hmap

/-- What no line that is hit gives is given as before. -/
theorem filterMap_lines_sweepLeaves_of_not_hit {β : Type} {f : Str → Option β}
    (hf : ∀ l, f (stripCr l) = f l) (hnone : ∀ l, hitLine hit l = true → f l = none) :
    (lines (sweepLeaves hit text)).filterMap f = (lines text).filterMap f := by
  rw [filterMap_lines_sweepLeaves hf, List.filterMap_filter]
  congr 1
  funext l
  cases hl : hitLine hit l with
  | true => exact (hnone l hl).symm
  | false => rfl

/-! ## what the policy keeps -/

/-- The settings of two policies are the same. -/
structure SameSettings (p p' : Policy) : Prop where
  default : p.default = p'.default
  prompt : p.prompt = p'.prompt
  mode : p.mode = p'.mode
  attribution : p.attribution = p'.attribution

variable [Casing]

theorem Policy.load_lines (text : Str) : Policy.load (some text) = .ofLines (lines text) := rfl

theorem Policy.has_sweepLeaves {e : Entry} : (Policy.load (some (sweepLeaves hit text))).Has e ↔
    ∃ l ∈ lines text, hitLine hit l = false ∧ lineEntry l = some e := by
  rw [load_lines, has_ofLines, ← List.mem_filterMap, filterMap_lines_sweepLeaves lineEntry_stripCr,
    List.mem_filterMap]
  simp [and_assoc]

/-- A line that is hit sets nothing, when no setting is hit. -/
theorem hitLine_sets (hrules : ∀ r, hit r = true → ∀ k, Keyword.ofText r.kind = some k →
    k.isSetting = false) (h : hitLine hit raw = true) :
    lineDefault raw = none ∧ linePrompt raw = none ∧ lineMode raw = none ∧
      lineAttribution raw = none := by
  cases hr : parseLine raw with
  | none =>
      rw [hitLine, hr] at h
      cases h
  | some r =>
      rw [hitLine, hr, Option.any_some] at h
      have hd := directive_of_parseLine hr
      rw [lineDefault, linePrompt, lineMode, lineAttribution, hd]
      cases hk : Keyword.ofText r.kind with
      | none => simp
      | some k =>
          have hset := hrules r h k hk
          cases k with
          | default | prompt | mode | attribution => cases hset
          | _ => simp

/-- A removal of rules and pins keeps the settings. -/
theorem sameSettings_sweepLeaves (hrules : ∀ r, hit r = true → ∀ k, Keyword.ofText r.kind = some k →
    k.isSetting = false) (text : Str) :
    SameSettings (Policy.load (some (sweepLeaves hit text))) (Policy.load (some text)) where
  default := by
    rw [Policy.load_lines, Policy.load_lines, Policy.default_ofLines, Policy.default_ofLines,
      lastDefault, lastDefault, filterMap_lines_sweepLeaves_of_not_hit lineDefault_stripCr
        fun l hl => (hitLine_sets hrules hl).1]
  prompt := by
    rw [Policy.load_lines, Policy.load_lines, Policy.prompt_ofLines, Policy.prompt_ofLines,
      filterMap_lines_sweepLeaves_of_not_hit linePrompt_stripCr
        fun l hl => (hitLine_sets hrules hl).2.1]
  mode := by
    rw [Policy.load_lines, Policy.load_lines, Policy.mode_ofLines, Policy.mode_ofLines,
      filterMap_lines_sweepLeaves_of_not_hit lineMode_stripCr
        fun l hl => (hitLine_sets hrules hl).2.2.1]
  attribution := by
    rw [Policy.load_lines, Policy.load_lines, Policy.attribution_ofLines, Policy.attribution_ofLines,
      filterMap_lines_sweepLeaves_of_not_hit lineAttribution_stripCr
        fun l hl => (hitLine_sets hrules hl).2.2.2]

end Pfsnitch
