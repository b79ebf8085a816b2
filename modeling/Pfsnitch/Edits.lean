import Pfsnitch.Policy.Edit
import Pfsnitch.Lib.Serial
import Mathlib.Data.List.Permutation

/-!
# Pfsnitch.Edits

Edits of one policy file that overlap.

An edit reads the file, computes, and writes: an append adds to what is in the
file by then, a rewrite writes a temporary file of a fixed name and renames it
over the policy.  Nothing is locked.  In a run whose renames find the file as it
was read and the temporary file as it was written, and whose appends find no
equivalent rule and a file that ends in a newline (`Undisturbed`), the edits
serialize and no rule is lost (`edits_serialize`); an append between the read and
the rename of a rewrite is lost (`edits_lose_append`).
-/

namespace Pfsnitch

open Lib

/-- The policy file, `policy.conf.tmp` and the backup. -/
structure PolicyFiles where
  file : Option Str
  tmp : Option Str := none
  bak : Option Str := none
deriving DecidableEq

/-- Where an edit is, with the text it has read. -/
inductive EditPc
  | begin
  | append
  | backup (text : Str)
  | writeTmp (text : Str)
  | rename (text : Str)
  | ended (ret : Returned)
deriving DecidableEq

namespace Edit

variable [Casing]

/-- A removal writes only if it has removed something. -/
def afterRead (op : Edit) (text : Str) : EditPc :=
  match (op.rewrite text).1 with
  | some _ => .writeTmp text
  | none => .ended (op.rewrite text).2

/-- The next step of an edit: one read, append, write or rename. -/
def step (op : Edit) (fs : PolicyFiles) : EditPc → Option (PolicyFiles × EditPc)
  | .begin =>
    match op with
    | .addRule kind value _ =>
      match addError kind value with
      | some e => some (fs, .ended (.invalid e))
      | none => some (fs, if hasRule kind value fs.file then .ended (.added false) else .append)
    | .removeRule .. =>
      match fs.file with
      | none => some (fs, .ended .notFound)
      | some text => some (fs, op.afterRead text)
    | .removeApp _ | .clearRules =>
      match fs.file with
      | none => some (fs, .ended .notFound)
      | some text => some (fs, .backup text)
    | .setMode _ | .setAttribution _ => some (fs, op.afterRead (fs.file.getD []))
    | .record .. | .recordId .. =>
      match op.recorded with
      | some l => some ({ fs with file := some (appendLine fs.file l) }, .ended .unit)
      | none => some (fs, .ended .unit)
  | .append =>
    match op.line (.added true) with
    | some l => some ({ fs with file := some (appendLine fs.file l) }, .ended (.added true))
    | none => none
  | .backup text => some ({ fs with bak := some text }, op.afterRead text)
  | .writeTmp text => some ({ fs with tmp := (op.rewrite text).1 }, .rename text)
  | .rename text =>
    match fs.tmp with
    | some t => some ({ fs with file := some t, tmp := none }, .ended (op.rewrite text).2)
    | none => some (fs, .ended .notFound)
  | .ended _ => none

end Edit

/-- A call of an edit. -/
structure EditProc where
  op : Edit
  pc : EditPc

/-- The files, and every call that was made. -/
structure EditState where
  files : PolicyFiles
  procs : List EditProc

/-- A call is made, or takes its next step. -/
inductive EditEvent
  | call (op : Edit)
  | step (i : Nat)

variable [Casing]

/-- The calls interleave. -/
def EditState.step (st : EditState) : EditEvent → Option (EditState × List Unit)
  | .call op => some ({ st with procs := st.procs ++ [⟨op, .begin⟩] }, [])
  | .step i => do
    let p ← st.procs[i]?
    let (files, pc) ← p.op.step st.files p.pc
    return (⟨files, st.procs.set i ⟨p.op, pc⟩⟩, [])

/-- What a call that has taken effect returns, or is about to return. -/
def EditProc.effect (p : EditProc) : Option Returned :=
  match p.pc with
  | .ended ret => some ret
  | .backup text =>
    match (p.op.rewrite text).1 with
    | some _ => none
    | none => some (p.op.rewrite text).2
  | _ => none

/-- The edits that have taken effect, with what they return. -/
def EditState.done (st : EditState) : List (Edit × Returned) :=
  st.procs.filterMap fun p => p.effect.map (p.op, ·)

/-- Is an equivalent of the rule to add in the file? -/
def Edit.present (op : Edit) (file : Option Str) : Bool :=
  match op with
  | .addRule kind value _ => hasRule kind value file
  | _ => false

/-- An edit finds the files as it needs them: an append, a file that ends in a newline,
and for `add_rule` still no equivalent rule; a rename, the policy as it was read and
the temporary file as it was written. -/
def Edit.Finds (op : Edit) (fs : PolicyFiles) : EditPc → Prop
  | .begin => op.recorded.isSome → NewlineTerminated (fs.file.getD [])
  | .append => NewlineTerminated (fs.file.getD []) ∧ op.present fs.file = false
  | .rename text => fs.file.getD [] = text ∧ fs.tmp = (op.rewrite text).1
  | .backup _ | .writeTmp _ | .ended _ => True

instance (op : Edit) (fs : PolicyFiles) : (pc : EditPc) → Decidable (op.Finds fs pc)
  | .begin => inferInstanceAs (Decidable (_ → _))
  | .append => inferInstanceAs (Decidable (_ ∧ _))
  | .rename _ => inferInstanceAs (Decidable (_ ∧ _))
  | .backup _ | .writeTmp _ | .ended _ => .isTrue trivial

/-- No call is disturbed by another. -/
def EditState.Undisturbed (st : EditState) : EditEvent → Prop
  | .call _ => True
  | .step i => ∀ p ∈ st.procs[i]?, p.op.Finds st.files p.pc

instance (st : EditState) : (e : EditEvent) → Decidable (st.Undisturbed e)
  | .call _ => .isTrue trivial
  | .step i => inferInstanceAs (Decidable (∀ p ∈ st.procs[i]?, p.op.Finds st.files p.pc))

/-! ## one step of an edit -/

variable {op : Edit} {fs fs' : PolicyFiles} {pc pc' : EditPc} {file : Option Str} {data text : Str}

namespace Edit

/-- Where an edit can be: only `add_rule` appends late, only what changes the text
is written. -/
def At (op : Edit) : EditPc → Prop
  | .append => ∃ kind value note, op = .addRule kind value note ∧ addError kind value = none
  | .writeTmp text | .rename text => ((op.rewrite text).1).isSome
  | .begin | .backup _ | .ended _ => True

theorem at_afterRead (op : Edit) (text : Str) : op.At (op.afterRead text) := by
  unfold afterRead
  split
  · rename_i hsome
    rw [At, hsome]
    rfl
  · trivial

/-- A removal has taken effect with its read when it finds nothing to remove. -/
theorem effect_afterRead (op : Edit) (text : Str) :
    EditProc.effect ⟨op, op.afterRead text⟩ = EditProc.effect ⟨op, .backup text⟩ := by
  unfold afterRead
  split
  · rename_i hsome
    simp only [EditProc.effect, hsome]
  · rename_i hnone
    simp only [EditProc.effect, hnone]

/-- What a rewrite writes is what the edit alone leaves. -/
theorem run_rewrite (h : (op.rewrite (file.getD [])).1 = some data) :
    op.run file = ((op.rewrite (file.getD [])).2, some data) := by
  cases op with
  | removeRule | removeApp | clearRules =>
      cases file with
      | none => cases h
      | some text => simp only [run, Option.getD_some] at h ⊢; rw [h, Option.getD_some]
  | setMode m => simp only [run, h]
  | setAttribution a => simp only [run, h]
  | addRule | record | recordId => cases h

/-- A step has no effect yet, and leaves the policy file alone. -/
def Silent (op : Edit) (pc pc' : EditPc) (fs fs' : PolicyFiles) : Prop :=
  EditProc.effect ⟨op, pc'⟩ = EditProc.effect ⟨op, pc⟩ ∧ fs'.file = fs.file

/-- A step is the whole effect of the edit. -/
structure Takes (op : Edit) (pc pc' : EditPc) (fs fs' : PolicyFiles) : Prop where
  before : EditProc.effect ⟨op, pc⟩ = none
  appends : op.Appends fs.file
  returns : EditProc.effect ⟨op, pc'⟩ = some (op.run fs.file).1
  file : fs'.file = (op.run fs.file).2

theorem appends_of_line (h : op.line (op.run file).1 = none) : op.Appends file := by
  rw [Appends, h]
  rintro ⟨⟩

/-- A removal reads the file: it takes effect if there is nothing to remove. -/
theorem read_commits (hread : fs.file = some text)
    (hrun : op.run (some text) = ((op.rewrite text).2, some ((op.rewrite text).1.getD text)))
    (hline : ∀ ret, op.line ret = none) (heffect : EditProc.effect ⟨op, pc'⟩ =
      EditProc.effect ⟨op, .backup text⟩) :
    op.Silent .begin pc' fs fs ∨ op.Takes .begin pc' fs fs := by
  cases hrw : (op.rewrite text).1 with
  | some data =>
      left
      refine ⟨?_, rfl⟩
      rw [heffect]
      simp only [EditProc.effect, hrw]
  | none =>
      right
      rw [hrw, Option.getD_none] at hrun
      refine ⟨rfl, appends_of_line (hline _), ?_, ?_⟩
      · rw [heffect, hread, hrun]
        simp only [EditProc.effect, hrw]
      · rw [hread, hrun]

/-- A removal that finds no file returns an error. -/
theorem notFound_takes (hread : fs.file = none) (hrun : op.run none = (.notFound, none))
    (hline : ∀ ret, op.line ret = none) : op.Takes .begin (.ended .notFound) fs fs where
  before := rfl
  appends := appends_of_line (hline _)
  returns := by rw [hread, hrun]; rfl
  file := by rw [hread, hrun]

/-- An append of the daemon is one step. -/
theorem recorded_takes (hfinds : op.Finds fs .begin) (hline : ∀ ret, op.line ret = op.recorded)
    (hrun : op.run fs.file = match op.recorded with
      | some l => (.unit, some (appendLine fs.file l))
      | none => (.unit, fs.file))
    (h : (match op.recorded with
      | some l => some ({ fs with file := some (appendLine fs.file l) }, EditPc.ended .unit)
      | none => some (fs, .ended .unit)) = some (fs', pc')) : op.Takes .begin pc' fs fs' := by
  have happ : op.Appends fs.file := fun hl => hfinds (by rwa [hline] at hl)
  cases hrec : op.recorded with
  | some l =>
      simp only [hrec] at h hrun
      cases h
      exact ⟨rfl, happ, by rw [hrun]; rfl, by rw [hrun]⟩
  | none =>
      simp only [hrec] at h hrun
      cases h
      exact ⟨rfl, happ, by rw [hrun]; rfl, by rw [hrun]⟩

/-- The first step of an edit. -/
theorem begin_commits (hfinds : op.Finds fs .begin) (h : op.step fs .begin = some (fs', pc')) :
    op.At pc' ∧ (op.Silent .begin pc' fs fs' ∨ op.Takes .begin pc' fs fs') := by
  cases op with
  | addRule kind value note =>
      cases herr : addError kind value with
      | some e =>
          have hrun : (Edit.addRule kind value note).run fs.file = (.invalid e, fs.file) := by
            simp only [run, herr]
          simp only [step, herr] at h
          cases h
          exact ⟨trivial, .inr ⟨rfl, appends_of_line (by rw [hrun]; rfl), by rw [hrun]; rfl,
            by rw [hrun]⟩⟩
      | none =>
          simp only [step, herr] at h
          cases h
          split
          · rename_i hdup
            have hrun : (Edit.addRule kind value note).run fs.file = (.added false, fs.file) := by
              simp only [run, herr, hdup, if_true]
            exact ⟨trivial, .inr ⟨rfl, appends_of_line (by rw [hrun]; rfl), by rw [hrun]; rfl,
              by rw [hrun]⟩⟩
          · exact ⟨⟨kind, value, note, rfl, herr⟩, .inl ⟨rfl, rfl⟩⟩
  | removeRule kind value =>
      simp only [step] at h
      split at h
      · rename_i hread
        cases h
        exact ⟨trivial, .inr (notFound_takes hread rfl fun _ => rfl)⟩
      · rename_i text hread
        cases h
        exact ⟨at_afterRead _ _, read_commits hread rfl (fun _ => rfl) (effect_afterRead _ _)⟩
  | removeApp exe =>
      simp only [step] at h
      split at h
      · rename_i hread
        cases h
        exact ⟨trivial, .inr (notFound_takes hread rfl fun _ => rfl)⟩
      · rename_i text hread
        cases h
        exact ⟨trivial, read_commits hread rfl (fun _ => rfl) rfl⟩
  | clearRules =>
      simp only [step] at h
      split at h
      · rename_i hread
        cases h
        exact ⟨trivial, .inr (notFound_takes hread rfl fun _ => rfl)⟩
      · rename_i text hread
        cases h
        exact ⟨trivial, read_commits hread rfl (fun _ => rfl) rfl⟩
  | setMode m =>
      cases h
      exact ⟨rfl, .inl ⟨rfl, rfl⟩⟩
  | setAttribution a =>
      cases h
      exact ⟨rfl, .inl ⟨rfl, rfl⟩⟩
  | record p ans exe dst host dport origin =>
      exact ⟨by simp only [step] at h; split at h <;> cases h <;> trivial,
        .inr (recorded_takes hfinds (fun _ => rfl) rfl h)⟩
  | recordId p exe sha =>
      exact ⟨by simp only [step] at h; split at h <;> cases h <;> trivial,
        .inr (recorded_takes hfinds (fun _ => rfl) rfl h)⟩

/-- What rewrites does not append. -/
theorem line_of_rewrite (h : (op.rewrite text).1 = some data) (ret : Returned) :
    op.line ret = none := by
  cases op with
  | addRule | record | recordId => cases h
  | removeRule | removeApp | clearRules | setMode | setAttribution => rfl

/-- What a step of an edit does: nothing to the policy file and no effect, or the whole
effect of the edit. -/
theorem step_commits (hat : op.At pc) (hfinds : op.Finds fs pc)
    (h : op.step fs pc = some (fs', pc')) :
    op.At pc' ∧ (op.Silent pc pc' fs fs' ∨ op.Takes pc pc' fs fs') := by
  cases pc with
  | begin => exact begin_commits hfinds h
  | append =>
      obtain ⟨kind, value, note, rfl, herr⟩ := hat
      obtain ⟨hterm, hdup⟩ := hfinds
      have hrun : (Edit.addRule kind value note).run fs.file =
          (.added true, some (appendLine fs.file (addLine kind value note))) := by
        simp only [present] at hdup
        simp only [run, herr, hdup, Bool.false_eq_true, if_false]
      cases h
      exact ⟨trivial, .inr ⟨rfl, fun _ => hterm, by rw [hrun]; rfl, by rw [hrun]⟩⟩
  | backup text =>
      cases h
      exact ⟨at_afterRead op text, .inl ⟨effect_afterRead op text, rfl⟩⟩
  | writeTmp text =>
      cases h
      exact ⟨hat, .inl ⟨rfl, rfl⟩⟩
  | rename text =>
      obtain ⟨hfile, htmp⟩ := hfinds
      obtain ⟨data, hdata⟩ := Option.isSome_iff_exists.mp hat
      have hrun : op.run fs.file = ((op.rewrite text).2, some data) := by
        rw [run_rewrite (hfile ▸ hdata), hfile]
      simp only [step, htmp, hdata] at h
      cases h
      exact ⟨trivial, .inr ⟨rfl, appends_of_line (line_of_rewrite hdata _), by rw [hrun]; rfl,
        by rw [hrun]⟩⟩
  | ended ret => cases h

end Edit

/-! ## the system -/

variable {st st' st₀ : EditState} {e : EditEvent} {o : List Unit}

/-- Every call is where it can be. -/
def EditState.Inv (st : EditState) : Prop := ∀ p ∈ st.procs, p.op.At p.pc

omit [Casing] in
theorem filterMap_cons_toList {α β : Type} (f : α → Option β) (x : α) (xs : List α) :
    (x :: xs).filterMap f = (f x).toList ++ xs.filterMap f := by
  rw [List.filterMap_cons]
  cases f x <;> rfl

/-- One call goes on: the effects are those of the others, and its own. -/
theorem done_set {i : Nat} {p q : EditProc} (hp : st.procs[i]? = some p) (files : PolicyFiles) :
    ∃ rest, st.done.Perm ((p.effect.map (p.op, ·)).toList ++ rest) ∧
      (EditState.done ⟨files, st.procs.set i q⟩).Perm ((q.effect.map (q.op, ·)).toList ++ rest) := by
  obtain ⟨hi, rfl⟩ := List.getElem?_eq_some_iff.mp hp
  refine ⟨(st.procs.eraseIdx i).filterMap fun p => p.effect.map (p.op, ·), ?_, ?_⟩
  · rw [← filterMap_cons_toList (fun p : EditProc => p.effect.map (p.op, ·))]
    exact (List.getElem_cons_eraseIdx_perm hi).symm.filterMap _
  · rw [← filterMap_cons_toList (fun p : EditProc => p.effect.map (p.op, ·))]
    exact (List.set_perm_cons_eraseIdx hi q).filterMap _

/-- Every step of an undisturbed run commits. -/
theorem EditState.commits (hinv : st.Inv) (hok : st.Undisturbed e) (h : st.step e = some (st', o)) :
    st'.Inv ∧ Commits Edit.run Edit.Appends (·.files.file) EditState.done st st' := by
  cases e with
  | call op =>
      cases h
      refine ⟨fun p hp => ?_, .silent rfl ?_⟩
      · cases List.mem_append.mp hp with
        | inl hp => exact hinv p hp
        | inr hp =>
            rw [List.mem_singleton.mp hp]
            trivial
      · simp [EditState.done, EditProc.effect]
  | step i =>
      simp only [EditState.step, Option.bind_eq_bind, Option.bind_eq_some_iff, Option.pure_def,
        Option.some.injEq, Prod.mk.injEq] at h
      obtain ⟨p, hp, ⟨fs', pc'⟩, hstep, rfl, -⟩ := h
      obtain ⟨hat, hcommits⟩ :=
        Edit.step_commits (hinv p (List.mem_of_getElem? hp)) (hok p hp) hstep
      obtain ⟨rest, hdone, hdone'⟩ := done_set (q := ⟨p.op, pc'⟩) hp fs'
      refine ⟨fun q hq => ?_, ?_⟩
      · cases List.mem_or_eq_of_mem_set hq with
        | inl hq => exact hinv q hq
        | inr hq => exact hq ▸ hat
      · cases hcommits with
        | inl hsilent =>
            refine .silent hsilent.2 (hdone'.trans ?_)
            rw [hsilent.1]
            exact hdone.symm
        | inr htakes =>
            refine .takes p.op htakes.appends htakes.file (hdone'.trans ?_)
            have hbefore : p.effect = none := htakes.before
            rw [htakes.returns]
            rw [hbefore] at hdone
            exact hdone.symm.cons _

/-- When every call has returned, what is done is what was called. -/
theorem done_of_ended (h : ∀ p ∈ st.procs, ∃ ret, p.pc = .ended ret) :
    st.done.map Prod.fst = st.procs.map (·.op) := by
  rw [EditState.done]
  generalize st.procs = procs at h
  induction procs with
  | nil => rfl
  | cons p procs ih =>
      obtain ⟨ret, hret⟩ := h p List.mem_cons_self
      have heffect : p.effect = some ret := by simp only [EditProc.effect, hret]
      rw [filterMap_cons_toList, heffect, Option.map_some, Option.toList_some, List.singleton_append,
        List.map_cons, List.map_cons, ih fun q hq => h q (List.mem_cons_of_mem _ hq)]

/-- Edits that overlap but do not disturb each other serialize.  The edits that have
taken effect, in some order, leave this file and return the same when they run one
after another; what the file said at first, and what an edit that returned has
appended, is still said unless an edit (a later one) names it. -/
theorem edits_serialize (h₀ : st₀.procs = [])
    (hrun : Run EditState.step EditState.Undisturbed st₀ st) :
    ∃ order : List (Edit × Returned), order.Perm st.done ∧
      ((∀ p ∈ st.procs, ∃ ret, p.pc = .ended ret) →
        (order.map Prod.fst).Perm (st.procs.map (·.op))) ∧
      runAll Edit.run (order.map Prod.fst) st₀.files.file = (order.map Prod.snd, st.files.file) ∧
      (∀ r ∈ parsed st₀.files.file, r ∈ parsed st.files.file ∨ ∃ e ∈ order, e.1.names r) ∧
      ∀ pre op ret post, order = pre ++ (op, ret) :: post → ∀ l ∈ op.line ret,
        ∀ r ∈ parsed (some (l ++ ['\n'])), r ∈ parsed st.files.file ∨ ∃ e ∈ post, e.1.names r := by
  have hinit : st₀.Inv := by
    rw [EditState.Inv, h₀]
    rintro p ⟨⟩
  obtain ⟨order, hperm, hserial⟩ := serial_of_commits hrun (by rw [EditState.done, h₀]; rfl) hinit
    (fun _ _ _ _ hinv hok hstep => (EditState.commits hinv hok hstep).1)
    fun _ _ _ _ hinv hok hstep => (EditState.commits hinv hok hstep).2
  have hkeep (op : Edit) (file : Option Str) (r : Rule) (happ : op.Appends file)
      (hr : r ∈ parsed file) := Edit.run_keeps happ hr
  refine ⟨order, hperm, fun hended => done_of_ended hended ▸ hperm.map _, hserial.runAll_eq, fun r hr => hserial.keeps (H := (· ∈ parsed ·)) hkeep hr,
    fun pre op ret post horder l hl r hr => ?_⟩
  have hwrite (op : Edit) (file : Option Str) (r : Rule) (happ : op.Appends file)
      (hw : ∃ l ∈ op.line (op.run file).1, r ∈ parsed (some (l ++ ['\n']))) :
      r ∈ parsed (op.run file).2 := by
    obtain ⟨l, hl, hr⟩ := hw
    exact Edit.run_writes happ hl hr
  exact hserial.lasts (H := (· ∈ parsed ·))
    (W := fun op ret r => ∃ l ∈ op.line ret, r ∈ parsed (some (l ++ ['\n'])))
    hkeep hwrite horder ⟨l, hl, hr⟩

/-- A policy file, and nobody there. -/
def policyFile (text : String) : EditState := ⟨{ file := some text.toList }, []⟩

/-- `add_rule deny-app /opt/x`. -/
def denyApp : Edit := .addRule Keyword.denyApp.text "/opt/x".toList none

omit [Casing] in
/-- `add_rule` has checked the file when `set_mode` reads it, writes and renames; then
it appends. -/
theorem edits_serialize_overlap :
    letI := asciiCasing
    ∃ (st : EditState) (order : List (Edit × Returned)), order.Perm st.done ∧
      ((∀ p ∈ st.procs, ∃ ret, p.pc = .ended ret) →
        (order.map Prod.fst).Perm (st.procs.map (·.op))) ∧
      st.procs = [⟨denyApp, .ended (.added true)⟩, ⟨.setMode .enforcement, .ended .unit⟩] ∧
      runAll Edit.run (order.map Prod.fst) (some "mode visibility\n".toList) =
        (order.map Prod.snd, some "mode enforcement\ndeny-app /opt/x\n".toList) := by
  let _ := asciiCasing
  let st : EditState := ⟨{ file := some "mode enforcement\ndeny-app /opt/x\n".toList },
    [⟨denyApp, .ended (.added true)⟩, ⟨.setMode .enforcement, .ended .unit⟩]⟩
  have hexec : exec EditState.step EditState.Undisturbed (policyFile "mode visibility\n")
      [.call denyApp, .call (.setMode .enforcement), .step 0, .step 1, .step 1, .step 1, .step 0] =
        some st := by
    rfl
  obtain ⟨order, hperm, hall, hrun, -⟩ :=
    edits_serialize rfl ((run_of_exec hexec).mono fun _ _ h => h.1)
  exact ⟨st, order, hperm, hall, rfl, hrun⟩

omit [Casing] in
/-- `set_mode` has read the file when `add_rule` appends to it, and then renames what it
made of the text without the new rule: the rule is gone, although its write returned
success and no edit names it, and no order of the two edits leaves this file. -/
theorem edits_lose_append :
    letI := asciiCasing
    ∃ st : EditState, Run EditState.step (fun _ _ => True) (policyFile "mode visibility\n") st ∧
      st.procs = [⟨.setMode .enforcement, .ended .unit⟩, ⟨denyApp, .ended (.added true)⟩] ∧
      ∀ order : List Edit, order.Perm (st.procs.map (·.op)) →
        (runAll Edit.run order (some "mode visibility\n".toList)).2 ≠ st.files.file := by
  let _ := asciiCasing
  let st : EditState := ⟨{ file := some "mode enforcement\n".toList },
    [⟨.setMode .enforcement, .ended .unit⟩, ⟨denyApp, .ended (.added true)⟩]⟩
  have hexec : exec EditState.step (fun _ _ => True) (policyFile "mode visibility\n")
      [.call (.setMode .enforcement), .call denyApp, .step 0, .step 1, .step 1, .step 0, .step 0] =
        some st := by
    rfl
  refine ⟨st, (run_of_exec hexec).mono fun _ _ _ => trivial, rfl, fun order horder => ?_⟩
  obtain rfl | rfl := List.perm_pair.mp horder
  · decide +kernel
  · decide +kernel

end Pfsnitch
