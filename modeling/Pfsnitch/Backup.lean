import Pfsnitch.Policy.Contents

/-!
# Pfsnitch.Backup

The backup of `remove_app` and `clear_rules`.

Both write the backup as soon as they have read the policy, and look for lines to
remove only then.  So a call that removes nothing replaces the backup of the call that
did, unless the backup already holds what is in the file (`backup_law_iff`).
-/

namespace Pfsnitch

open Lib

/-- The policy file and its backup, as they are stored. -/
@[ext] structure Backed where
  file : Option (List UInt8)
  bak : Option (List UInt8)
deriving DecidableEq

/-- What the file system does in a call: whether the policy can be read, how writing the
backup ends, and whether the new policy can be written and renamed. -/
structure RemovalOps where
  read : Bool
  bak : WriteResult
  write : Bool
deriving DecidableEq

/-- `remove_app` of a binary, and `clear_rules`. -/
inductive Removal
  | app (exe : Str)
  | clear
deriving DecidableEq

namespace Removal

/-- The rules that the call removes. -/
def hits : Removal → Rule → Bool
  | .app exe => Rule.belongsTo exe
  | .clear => Rule.clears

/-- What the call makes of the text. -/
def apply : Removal → Str → Str × Nat
  | .app exe => removeApp exe
  | .clear => clearRules

/-- The text that the call reads. -/
def text (ops : RemovalOps) (s : Backed) : Option Str := if ops.read then readToString s.file else none

/-- The call: how many lines went, if it succeeds, and the files it leaves. -/
def run (op : Removal) (ops : RemovalOps) (s : Backed) : Option Nat × Backed :=
  match text ops s with
  | none => (none, s)
  | some text =>
    match ops.bak with
    | .failed left => (none, { s with bak := left })
    | .written =>
      let (kept, removed) := op.apply text
      if removed > 0 then
        if ops.write then (some removed, ⟨some (utf8Bytes kept), some (utf8Bytes text)⟩)
        else (none, { s with bak := some (utf8Bytes text) })
      else (some removed, { s with bak := some (utf8Bytes text) })

/-- The call succeeds, and at least one line goes. -/
def removes (op : Removal) (ops : RemovalOps) (s : Backed) : Bool := (op.run ops s).1.any (0 < ·)

/-- Nothing is spoiled: the policy cannot be read; or a line goes; or the backup is what
it was, because it already holds the policy or because it could not be written. -/
def Spares (op : Removal) (ops : RemovalOps) (s : Backed) : Prop :=
  match text ops s, ops.bak with
  | none, _ => True
  | some _, .failed left => left = s.bak
  | some t, .written =>
    (ops.write = true ∧ ∃ l ∈ lines t, (parseLine l).any op.hits = true) ∨ s.bak = s.file

end Removal

/-- A call, or somebody else's edit of the policy file. -/
inductive BackupEvent
  | call (op : Removal) (ops : RemovalOps)
  | edit (file : Option (List UInt8))

namespace BackupEvent

def step (s : Backed) : BackupEvent → Backed
  | .call op ops => (op.run ops s).2
  | .edit file => { s with file := file }

def removes (s : Backed) : BackupEvent → Bool
  | .call op ops => op.removes ops s
  | .edit _ => false

end BackupEvent

/-- The files after a sequence of calls. -/
def Backed.play (s : Backed) (es : List BackupEvent) : Backed := es.foldl BackupEvent.step s

/-- The policy file before each call that has removed a line. -/
def Backed.removals (s : Backed) : List BackupEvent → List (Option (List UInt8))
  | [] => []
  | e :: es => (if e.removes s then [s.file] else []) ++ (e.step s).removals es

/-- **The law of the backup.**  It holds the policy as it was before the last call that
removed a line, and a call that removes none changes neither file. -/
structure BackupLaw (s : Backed) (es : List BackupEvent) : Prop where
  bak : ∀ pre, pre <+: es → (s.play pre).bak = (s.removals pre).getLast?.getD s.bak
  unchanged : ∀ pre op ops, pre ++ [.call op ops] <+: es → op.removes ops (s.play pre) = false →
    s.play (pre ++ [.call op ops]) = s.play pre

variable {op : Removal} {ops : RemovalOps} {s : Backed} {es : List BackupEvent} {e : BackupEvent}
  {t : Str}

/-! ## one call -/

namespace Removal

theorem apply_eq (op : Removal) (t : Str) : op.apply t = sweep op.hits t := by
  cases op <;> rfl

theorem file_of_text (h : text ops s = some t) : s.file = some (utf8Bytes t) := by
  unfold text at h
  split at h
  · obtain ⟨bytes, hfile, hdec⟩ := Option.bind_eq_some_iff.mp h
    rw [hfile, decodeUtf8_eq_some.mp hdec]
  · cases h

/-- A line goes when the call hits one. -/
theorem apply_pos : 0 < (op.apply t).2 ↔ ∃ l ∈ lines t, (parseLine l).any op.hits = true := by
  rw [apply_eq, sweep_eq, List.countP_pos_iff]

/-- A call that removes a line leaves a backup of the policy. -/
theorem bak_run_of_removes (h : op.removes ops s = true) : (op.run ops s).2.bak = s.file := by
  unfold removes at h
  unfold run at h ⊢
  cases htext : text ops s with
  | none => simp [htext] at h
  | some t =>
      rw [file_of_text htext]
      cases hbak : ops.bak with
      | failed left => simp [htext, hbak] at h
      | written =>
          simp only
          split
          · split <;> rfl
          · rfl

/-- A call spares the backup when it removes a line or changes nothing. -/
theorem spares_iff : op.Spares ops s ↔ op.removes ops s = true ∨ (op.run ops s).2 = s := by
  unfold Spares removes run
  cases htext : text ops s with
  | none => simp
  | some t =>
      cases hbak : ops.bak with
      | failed left => simp [Backed.ext_iff]
      | written =>
          have hsame : s.bak = s.file ↔ ({ s with bak := some (utf8Bytes t) } : Backed) = s := by
            rw [file_of_text htext, Backed.ext_iff, eq_comm]
            simp [file_of_text htext]
          simp only [← apply_pos, hsame]
          by_cases hpos : 0 < (op.apply t).2
          · cases hwrite : ops.write <;> simp [hpos]
          · simp [hpos]

end Removal

/-! ## a sequence of calls -/

namespace Backed

theorem play_concat : s.play (es ++ [e]) = e.step (s.play es) := List.foldl_concat _ _ _ _

theorem removals_concat : s.removals (es ++ [e]) =
    s.removals es ++ if e.removes (s.play es) then [(s.play es).file] else [] := by
  induction es generalizing s with
  | nil => exact List.append_nil _
  | cons e' es ih =>
      rw [List.cons_append, removals, removals, ih, List.append_assoc]
      rfl

end Backed

/-- After a step that spares the backup, it holds the policy before the last call that
removed a line, if it did before. -/
theorem bak_concat (hbak : (s.play es).bak = (s.removals es).getLast?.getD s.bak)
    (hspares : ∀ op ops, e = .call op ops → op.Spares ops (s.play es)) :
    (s.play (es ++ [e])).bak = (s.removals (es ++ [e])).getLast?.getD s.bak := by
  rw [Backed.play_concat, Backed.removals_concat]
  cases hremoves : e.removes (s.play es) with
  | true =>
      rw [if_pos rfl, List.getLast?_concat, Option.getD_some]
      cases e with
      | edit file => cases hremoves
      | call op ops => exact Removal.bak_run_of_removes hremoves
  | false =>
      rw [if_neg Bool.false_ne_true, List.append_nil, ← hbak]
      cases e with
      | edit file => rfl
      | call op ops =>
          obtain h | h := Removal.spares_iff.mp (hspares op ops rfl)
          · rw [show op.removes ops (s.play es) = false from hremoves] at h
            cases h
          · exact congrArg Backed.bak h

/-- The law holds along a sequence of calls exactly when each of them removes a line, or
cannot read the policy, or finds the policy in the backup, or leaves the backup alone. -/
theorem backup_law_iff (s : Backed) (es : List BackupEvent) : BackupLaw s es ↔
    ∀ pre op ops, pre ++ [.call op ops] <+: es → op.Spares ops (s.play pre) := by
  constructor
  · intro h pre op ops hpre
    cases hremoves : op.removes ops (s.play pre) with
    | true => exact Removal.spares_iff.mpr (.inl hremoves)
    | false =>
        have hsame := h.unchanged pre op ops hpre hremoves
        rw [Backed.play_concat] at hsame
        exact Removal.spares_iff.mpr (.inr hsame)
  · intro h
    constructor
    · intro pre hpre
      induction pre using List.reverseRecOn with
      | nil => rfl
      | append_singleton pre e ih =>
          refine bak_concat (ih ((List.prefix_append _ _).trans hpre)) ?_
          rintro op ops rfl
          exact h pre op ops hpre
    · intro pre op ops hpre hremoves
      rw [Backed.play_concat]
      obtain hsp | hsp := Removal.spares_iff.mp (h pre op ops hpre)
      · rw [hremoves] at hsp
        cases hsp
      · exact hsp

/-- `clear` twice: the second call finds nothing to remove, and what the first one saved
is gone. -/
theorem backup_law_second_clear :
    let s : Backed := ⟨some (utf8Bytes "deny-app /a\n".toList), none⟩
    let clear : BackupEvent := .call .clear ⟨true, .written, true⟩
    ¬ BackupLaw s [clear, clear] ∧
      (s.play [clear]).bak = s.file ∧ s.play [clear, clear] = ⟨some [], some []⟩ := by
  intro s clear
  refine ⟨fun h => ?_, by decide +kernel, by decide +kernel⟩
  have hbak := h.bak [clear, clear] List.prefix_rfl
  exact absurd hbak (by decide +kernel)

end Pfsnitch
