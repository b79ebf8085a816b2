import Pfsnitch.Lib.Run
import Pfsnitch.Seen

/-!
# Pfsnitch.Survives

The last-seen table survives.

A flush that fails leaves the table marked as written, so that nothing is written
until the next contact (`table_lost`).  When that contact comes first, and the
names can be written, a flush that is due and succeeds leaves a file that reads
back as the table (`table_survives`).
-/

namespace Pfsnitch.Seen

open Lib

/-- The daemon's table and its file.  `dropped` says that the last attempt to write the table
has failed and that nothing was recorded since. -/
structure Recorder where
  seen : Seen
  file : Option Str
  dropped : Bool

inductive Event where
  | touch (exe dest : Str) (now : UInt64)
  | flush (now every : Nat) (order : Order) (io : FlushIo)

variable [Casing]

namespace Recorder

/-- The daemon starts. -/
def start (file : Option Str) : Recorder := ⟨.new file, file, false⟩

def step (w : Recorder) : Event → Option (Recorder × List Unit)
  | .touch exe dest now =>
    let seen := w.seen.touch exe dest now
    some ({ w with seen, dropped := w.dropped && !seen.dirty }, [])
  | .flush now every order io =>
    let (seen, file) := w.seen.flush w.file now every order io
    let tried := w.seen.dirty && w.seen.due now every
    some (⟨seen, file, if tried then !io.ok else w.dropped⟩, [])

end Recorder

/-- The file reads back as the table. -/
def ReadsBack (s : Seen) (file : Option Str) : Prop :=
  ∀ k, (load file).lookup k = s.map.lookup k

/-- A flush that is due and can write finds no changes that another one has dropped, and
names that can be written. -/
def Keeps (w : Recorder) : Event → Prop
  | .flush now every _ io => w.seen.due now every → io.ok →
      w.dropped = false ∧ (w.seen.dirty → ∀ k ∈ w.seen.map, Writable k)
  | .touch .. => True

variable {w w' : Recorder} {e : Event} {out : List Unit}

/-- What is not marked as changed is in the file, unless it was dropped. -/
def Synced (w : Recorder) : Prop :=
  w.seen.dirty = false → w.dropped = false → ReadsBack w.seen w.file

/-- A table that is written is read back. -/
theorem readsBack_tableText {s : Seen} (order : Order) (h : ∀ k ∈ s.map, Writable k) :
    ReadsBack s (some (tableText (order.arrange s.map.entries))) := by
  intro k
  have hperm := order.perm s.map.entries
  have hkeys : (order.arrange s.map.entries).NodupKeys :=
    (List.perm_nodupKeys hperm).mpr s.map.nodupKeys
  rw [lookup_load_tableText (fun e he => ?_) hkeys, List.perm_dlookup k hkeys hperm]
  · rfl
  · exact h e.1 (List.mem_keys_of_mem (hperm.mem_iff.mp he))

/-- A flush that is due and succeeds. -/
theorem Synced.flush (h : Synced w) {now every : Nat} {order : Order} {io : FlushIo}
    (hok : Keeps w (.flush now every order io)) (hdue : w.seen.due now every = true)
    (hio : io.ok = true) : ReadsBack (w.seen.flush w.file now every order io).1
      (w.seen.flush w.file now every order io).2 := by
  obtain ⟨hdropped, hwritable⟩ := hok hdue hio
  cases hdirty : w.seen.dirty with
  | false =>
      rw [flush_clean hdirty]
      exact h hdirty hdropped
  | true =>
      rw [flush_writes hdirty hdue, if_pos hio]
      exact readsBack_tableText order (hwritable hdirty)

/-- One event. -/
theorem Synced.step (h : Synced w) (hok : Keeps w e) (hstep : w.step e = some (w', out)) :
    Synced w' := by
  cases e with
  | touch exe dest now =>
      simp only [Recorder.step, Option.some.injEq, Prod.mk.injEq] at hstep
      obtain ⟨rfl, -⟩ := hstep
      intro hclean hdropped
      change (w.seen.touch exe dest now).dirty = false at hclean
      change (w.dropped && !(w.seen.touch exe dest now).dirty) = false at hdropped
      rw [hclean, Bool.not_false, Bool.and_true] at hdropped
      change ReadsBack (w.seen.touch exe dest now) w.file
      unfold touch at hclean ⊢
      split at hclean
      · rename_i hignored
        rw [if_pos hignored]
        exact h hclean hdropped
      · cases hclean
  | flush now every order io =>
      simp only [Recorder.step, Option.some.injEq, Prod.mk.injEq] at hstep
      obtain ⟨rfl, -⟩ := hstep
      intro hclean hdropped
      cases hdirty : w.seen.dirty with
      | false =>
          simp only [hdirty, Bool.false_and, Bool.false_eq_true, if_false] at hdropped
          rw [flush_clean hdirty]
          exact h hdirty hdropped
      | true =>
          cases hdue : w.seen.due now every with
          | false =>
              rw [flush_early hdue, hdirty] at hclean
              cases hclean
          | true =>
              simp only [hdirty, hdue, Bool.and_true, if_true, Bool.not_eq_false'] at hdropped
              exact h.flush hok hdue hdropped

/-- **The table survives**: after a run whose flushes meet the condition, a flush that is due
and succeeds leaves a file from which the table is read back. -/
theorem table_survives {file : Option Str} {now every : Nat} {order : Order} {io : FlushIo}
    (hrun : Run Recorder.step Keeps (.start file) w) (hok : Keeps w (.flush now every order io))
    (hdue : w.seen.due now every = true) (hio : io.ok = true) :
    ReadsBack (w.seen.flush w.file now every order io).1
      (w.seen.flush w.file now every order io).2 := by
  have h : Synced w := hrun.invariant (fun _ _ _ => rfl) fun _ _ _ _ h hok hstep => h.step hok hstep
  exact h.flush hok hdue hio

/-- The table is gone through as it is. -/
def inOrder : Order := ⟨id, fun l => .refl l⟩

/-- A contact with a name that can be written, at this time. -/
def contact (now : UInt64) : Event := .touch "/usr/bin/curl".toList "example.com".toList now

/-- A flush at this time, every ten seconds; the file can be replaced or not. -/
def flushAt (seconds : Nat) (renameOk : Bool) : Event :=
  .flush (seconds * 1000000000) 10000000000 inOrder ⟨true, true, renameOk⟩

omit [Casing] in
/-- A flush fails, a contact follows, and the next flush saves both. -/
theorem table_survives_retry :
    let _ := asciiCasing
    ∃ w, Run Recorder.step Keeps (.start none) w ∧
      w.seen.map.lookup ("/usr/bin/curl".toList, "example.com".toList) = some 1700000005 ∧
      let r := w.seen.flush w.file 20000000000 10000000000 inOrder ⟨true, true, true⟩
      ReadsBack r.1 r.2 := by
  intro _
  have hrun : Run Recorder.step Keeps (.start none) _ :=
    .tail (.tail (.tail .refl (i := contact 1700000000) trivial rfl) (i := flushAt 0 false)
      (fun _ hio => by cases hio) rfl) (i := contact 1700000005) trivial rfl
  refine ⟨_, hrun, rfl, table_survives hrun (fun _ _ => ⟨rfl, fun _ k hk => ?_⟩) rfl rfl⟩
  obtain rfl : k = ("/usr/bin/curl".toList, "example.com".toList) := List.mem_singleton.mp hk
  exact ⟨by decide, by decide, by decide, by decide, by decide⟩

omit [Casing] in
/-- A flush fails, and the next one takes its changes for saved. -/
theorem table_lost :
    let _ := asciiCasing
    ¬ ∀ w, Run Recorder.step (fun _ _ => True) (.start none) w → ∀ now every order io,
      w.seen.due now every = true → io.ok = true →
        ReadsBack (w.seen.flush w.file now every order io).1
          (w.seen.flush w.file now every order io).2 := by
  intro _ h
  have hrun : Run Recorder.step (fun _ _ => True) (.start none) _ :=
    .tail (.tail .refl trivial (i := contact 1700000000) rfl) trivial (i := flushAt 0 false) rfl
  have hback := h _ hrun 20000000000 10000000000 inOrder ⟨true, true, true⟩ rfl rfl
    ("/usr/bin/curl".toList, "example.com".toList)
  cases hback

end Pfsnitch.Seen
