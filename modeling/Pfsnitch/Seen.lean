import Pfsnitch.Lib.Memo
import Pfsnitch.Policy.Target

/-!
# Pfsnitch.Seen

When did this binary last talk to this destination?

`Seen` keeps the time of the last contact for each binary and destination, and
writes the table to a file from which the command line reads it back: a line
each, of the time, the destination and the binary.

* `lookup_load_tableText` — a table is read back as it was written, if its names
  can be written (`Writable`).
-/

namespace Pfsnitch

open Lib

/-- (binary, destination) to seconds since the epoch. -/
abbrev LastSeen := AList fun _ : Str × Str => UInt64

/-- `Seen`; the time of the last flush is on the monotonic clock, in nanoseconds. -/
structure Seen where
  map : LastSeen
  dirty : Bool
  lastFlush : Option Nat

namespace Seen

/-- One entry of the table. -/
abbrev Entry := Sigma fun _ : Str × Str => UInt64

/-- The order in which a map is gone through. -/
structure Order where
  arrange : List Entry → List Entry
  perm : ∀ l, (arrange l).Perm l

/-- Which of the calls that replace the file succeed. -/
structure FlushIo where
  createOk : Bool
  writeOk : Bool
  renameOk : Bool
deriving DecidableEq

def FlushIo.ok (io : FlushIo) : Bool := io.createOk && io.writeOk && io.renameOk

/-- `format!("{ts}\t{dest}\t{exe}")`. -/
def tableLine (e : Entry) : Str := showU64 e.2 ++ '\t' :: (e.1.2 ++ '\t' :: e.1.1)

/-- The table as it is written. -/
def tableText (es : List Entry) : Str := unlines (es.map tableLine)

variable [Casing]

/-- One line of the file: `splitn(3, '\t')` and the parts it needs. -/
def tableEntry (raw : Str) : Option Entry :=
  match splitFirst (· == '\t') raw with
  | (ts, some rest) =>
    match splitFirst (· == '\t') rest with
    | (dest, some exe) => (parseU64 ts).map fun t => ⟨(exe, lower dest), t⟩
    | (_, none) => none
  | (_, none) => none

def loadEntry (m : LastSeen) (raw : Str) : LastSeen :=
  match tableEntry raw with
  | some e => m.insert e.1 e.2
  | none => m

/-- `load`, for the text of the file, if it can be read. -/
def load (text : Option Str) : LastSeen :=
  match text with
  | some t => (lines t).foldl loadEntry ∅
  | none => ∅

/-- `Seen::new`. -/
def new (text : Option Str) : Seen := ⟨load text, false, none⟩

/-- `Seen::touch`. -/
def touch (s : Seen) (exe dest : Str) (now : UInt64) : Seen :=
  if exe = [] ∨ dest = [] ∨ dest = ['-'] then s
  else { s with map := insertBounded 4096 s.map (exe, lower dest) now, dirty := true }

omit [Casing] in
/-- Enough time has passed since the last flush. -/
def due (s : Seen) (now every : Nat) : Bool := !s.lastFlush.any fun t => now - t < every

omit [Casing] in
/-- `Seen::flush`: the table, and the file it leaves. -/
def flush (s : Seen) (file : Option Str) (now every : Nat) (order : Order) (io : FlushIo) :
    Seen × Option Str :=
  if !s.dirty then (s, file)
  else if !s.due now every then (s, file)
  else
    ({ s with lastFlush := some now, dirty := false },
      if io.ok then some (tableText (order.arrange s.map.entries)) else file)

omit [Casing] in
theorem flush_clean {s : Seen} (h : s.dirty = false) (file : Option Str) (now every : Nat)
    (order : Order) (io : FlushIo) : s.flush file now every order io = (s, file) := by
  simp [flush, h]

omit [Casing] in
theorem flush_early {s : Seen} {now every : Nat} (h : s.due now every = false)
    (file : Option Str) (order : Order) (io : FlushIo) :
    s.flush file now every order io = (s, file) := by
  simp [flush, h]

omit [Casing] in
theorem flush_writes {s : Seen} {now every : Nat} (hdirty : s.dirty = true)
    (hdue : s.due now every = true) (file : Option Str) (order : Order) (io : FlushIo) :
    s.flush file now every order io = ({ s with lastFlush := some now, dirty := false },
      if io.ok then some (tableText (order.arrange s.map.entries)) else file) := by
  simp [flush, hdirty, hdue]

/-- `ago`, at the time it reads the clock. -/
def ago (ts : Option UInt64) (now : UInt64) : Str :=
  match ts with
  | none => "never".toList
  | some ts =>
    if ts = 0 then "never".toList
    else if now < ts then "just now".toList
    else
      let d := now - ts
      if d < 60 then showU64 d ++ "s ago".toList
      else if d < 3600 then showU64 (d / 60) ++ "m ago".toList
      else if d < 86400 then showU64 (d / 3600) ++ "h ago".toList
      else showU64 (d / 86400) ++ "d ago".toList

/-! ## the table read back -/

/-- Names that the format can carry: no newline, no tab in the destination, and nothing at
the end of the binary that reads as part of the line ending.  The destination stays as it is
when it is folded once more. -/
structure Writable (k : Str × Str) : Prop where
  exe : '\n' ∉ k.1
  dest : '\n' ∉ k.2
  tab : '\t' ∉ k.2
  cr : k.1.getLast? ≠ some '\r'
  folded : lower k.2 = k.2

variable {es : List Entry} {e : Entry} {k : Str × Str}

omit [Casing] in
theorem digit_of_mem_showU64 {t : UInt64} {c : Char} (h : c ∈ showU64 t) :
    isDigitOf 10 c = true :=
  isDigitOf_of_mem_toDigits (by decide) (by decide) h

/-- A line of the table is read back as its entry. -/
theorem tableEntry_tableLine (h : Writable e.1) : tableEntry (tableLine e) = some e := by
  have hts : ∀ c ∈ showU64 e.2, (c == '\t') = false := by
    intro c hc
    rw [beq_eq_false_iff_ne]
    rintro rfl
    exact absurd (digit_of_mem_showU64 hc) (by decide)
  have hdest : ∀ c ∈ e.1.2, (c == '\t') = false := by
    intro c hc
    rw [beq_eq_false_iff_ne]
    rintro rfl
    exact h.tab hc
  rw [tableEntry, tableLine, splitFirst_append hts (by rfl)]
  simp only [splitFirst_append hdest (show ('\t' == '\t') = true from rfl), parseU64_showU64,
    Option.map_some, h.folded]

/-- It is one line. -/
theorem newline_not_mem_tableLine (h : Writable e.1) : '\n' ∉ tableLine e := by
  simp only [tableLine, List.mem_append, List.mem_cons, not_or]
  refine ⟨fun hc => ?_, by decide, h.dest, by decide, h.exe⟩
  exact absurd (digit_of_mem_showU64 hc) (by decide)

/-- Its end is not taken for part of the line ending. -/
theorem stripCr_tableLine (h : Writable e.1) : stripCr (tableLine e) = tableLine e := by
  apply stripCr_of_getLast
  intro hne hlast
  have hend : (tableLine e).getLast? = some '\r' := by
    rw [List.getLast?_eq_some_getLast hne, hlast]
  have hsuffix : tableLine e = (showU64 e.2 ++ '\t' :: e.1.2) ++ ('\t' :: e.1.1) := by
    simp [tableLine]
  rw [hsuffix, List.getLast?_append, List.getLast?_cons, Option.some_or, Option.some.injEq] at hend
  cases hexe : e.1.1.getLast? with
  | none =>
      rw [hexe] at hend
      exact absurd hend (by decide)
  | some c =>
      rw [hexe] at hend
      exact h.cr (hexe.trans (congrArg some hend))

omit [Casing] in
/-- Entries of different keys are found again after they were inserted one by one. -/
theorem lookup_foldl_insert (h : es.NodupKeys) :
    (es.foldl (fun m e => m.insert e.1 e.2) (∅ : LastSeen)).lookup k = es.dlookup k := by
  induction es using List.reverseRecOn with
  | nil => rfl
  | append_singleton es e ih =>
      obtain ⟨k', t⟩ := e
      have hkeys : es.NodupKeys := h.sublist (List.sublist_append_left es _)
      rw [List.foldl_concat, List.dlookup_append]
      by_cases hk : k = k'
      · subst hk
        have hnone : es.dlookup k = none := by
          rw [List.dlookup_eq_none]
          intro hmem
          rw [List.NodupKeys, List.keys, List.map_append, List.nodup_append] at h
          exact h.2.2 k hmem k (by simp) rfl
        rw [AList.lookup_insert, hnone, List.dlookup_cons_eq, Option.none_or]
      · rw [AList.lookup_insert_ne hk, ih hkeys, List.dlookup_cons_ne _ _ hk, List.dlookup_nil,
          Option.or_none]

/-- A table whose names can be written is read back. -/
theorem lookup_load_tableText (h : ∀ e ∈ es, Writable e.1) (hkeys : es.NodupKeys) :
    (load (some (tableText es))).lookup k = es.dlookup k := by
  have hlines : lines (tableText es) = es.map tableLine := by
    rw [tableText, lines_unlines, List.map_map]
    · exact List.map_congr_left fun e he => stripCr_tableLine (h e he)
    · intro l hl
      obtain ⟨e, he, rfl⟩ := List.mem_map.mp hl
      exact newline_not_mem_tableLine (h e he)
  have hfold : (es.map tableLine).foldl loadEntry ∅ =
      es.foldl (fun m e => m.insert e.1 e.2) (∅ : LastSeen) := by
    rw [List.foldl_map]
    refine List.foldl_ext _ _ _ fun m e he => ?_
    rw [loadEntry, tableEntry_tableLine (h e he)]
  rw [load, hlines, hfold, lookup_foldl_insert hkeys]

end Seen

end Pfsnitch
