import Pfsnitch.Lib.Text

/-!
# Pfsnitch.Lib.Pieces

The pieces of a sequence that a separator ends (`split_terminator`), for bytes and
for characters alike.  Unlike `lines`, the pieces of a text at its newlines keep
their carriage returns: they are the lines as the file has them.
-/

namespace Pfsnitch.Lib

variable {α : Type} [DecidableEq α] {sep : α} {l s t : List α}

/-- `split_terminator`: the last piece may lack the separator. -/
def pieces (sep : α) : List α → List (List α)
  | [] => []
  | c :: s =>
    if c = sep then [] :: pieces sep s
    else
      match pieces sep s with
      | [] => [[c]]
      | l :: ls => (c :: l) :: ls

/-- The pieces that have their separator. -/
def endedPieces (sep : α) : List α → List (List α)
  | [] => []
  | c :: s =>
    if c = sep then [] :: endedPieces sep s
    else
      match endedPieces sep s with
      | [] => []
      | l :: ls => (c :: l) :: ls

/-- Empty, or ending in the separator. -/
def Terminated (sep : α) (s : List α) : Prop := s = [] ∨ ∃ t, s = t ++ [sep]

@[simp] theorem pieces_nil : pieces sep [] = [] := rfl

theorem pieces_cons_ne {c : α} (hc : c ≠ sep) : pieces sep (c :: s) =
    match pieces sep s with
    | [] => [[c]]
    | l :: ls => (c :: l) :: ls := by
  rw [pieces, if_neg hc]

theorem pieces_ne_nil (h : s ≠ []) : pieces sep s ≠ [] := by
  cases s with
  | nil => exact absurd rfl h
  | cons c s =>
      rw [pieces]
      split
      · simp
      · split <;> simp

/-- A piece with its separator is cut off. -/
theorem pieces_append_sep (h : sep ∉ l) (s : List α) : pieces sep (l ++ sep :: s) = l :: pieces sep s := by
  induction l with
  | nil => simp [pieces]
  | cons c l ih =>
      rw [List.mem_cons, not_or] at h
      rw [List.cons_append, pieces_cons_ne (Ne.symm h.1), ih h.2]

/-- What is left without a separator is one piece. -/
theorem pieces_last (h : sep ∉ l) (hne : l ≠ []) : pieces sep l = [l] := by
  induction l with
  | nil => exact absurd rfl hne
  | cons c l ih =>
      rw [List.mem_cons, not_or] at h
      rw [pieces_cons_ne (Ne.symm h.1)]
      cases l with
      | nil => rfl
      | cons d l => rw [ih h.2 (List.cons_ne_nil d l)]

theorem endedPieces_append_sep (h : sep ∉ l) (s : List α) :
    endedPieces sep (l ++ sep :: s) = l :: endedPieces sep s := by
  induction l with
  | nil => simp [endedPieces]
  | cons c l ih =>
      rw [List.mem_cons, not_or] at h
      rw [List.cons_append, endedPieces, if_neg (Ne.symm h.1), ih h.2]

theorem endedPieces_last (h : sep ∉ l) : endedPieces sep l = [] := by
  induction l with
  | nil => rfl
  | cons c l ih =>
      rw [List.mem_cons, not_or] at h
      rw [endedPieces, if_neg (Ne.symm h.1), ih h.2]

/-- A sequence is empty, a last piece, or a piece with its separator and more. -/
@[elab_as_elim]
theorem piecesInduction (sep : α) {motive : List α → Prop} (nil : motive [])
    (last : ∀ l, sep ∉ l → l ≠ [] → motive l)
    (piece : ∀ l s, sep ∉ l → motive s → motive (l ++ sep :: s)) (s : List α) : motive s := by
  by_cases hsep : sep ∈ s
  · obtain ⟨l, t, rfl, hl⟩ := List.eq_append_cons_of_mem hsep
    have hlt : t.length < (l ++ sep :: t).length := by
      simp only [List.length_append, List.length_cons]
      omega
    exact piece l t hl (piecesInduction sep nil last piece t)
  · by_cases hne : s = []
    · exact hne ▸ nil
    · exact last s hsep hne
termination_by s.length

omit [DecidableEq α] in
theorem terminated_nil : Terminated sep ([] : List α) := .inl rfl

omit [DecidableEq α] in
theorem terminated_concat (s : List α) : Terminated sep (s ++ [sep]) := .inr ⟨s, rfl⟩

theorem mem_pieces_of_mem_endedPieces (h : l ∈ endedPieces sep s) : l ∈ pieces sep s := by
  induction s using piecesInduction sep with
  | nil => cases h
  | last l' hl hne =>
      rw [endedPieces_last hl] at h
      cases h
  | piece l' s hl ih =>
      rw [endedPieces_append_sep hl, List.mem_cons] at h
      rw [pieces_append_sep hl, List.mem_cons]
      exact h.imp_right ih

/-- Every piece with its separator. -/
def unpieces (sep : α) (ls : List (List α)) : List α := ls.flatMap (· ++ [sep])

theorem pieces_unpieces {ls : List (List α)} (h : ∀ l ∈ ls, sep ∉ l) :
    pieces sep (unpieces sep ls) = ls := by
  induction ls with
  | nil => rfl
  | cons l ls ih =>
      rw [List.forall_mem_cons] at h
      rw [unpieces, List.flatMap_cons, List.append_assoc, List.singleton_append,
        pieces_append_sep h.1]
      exact congrArg _ (ih h.2)

/-- Text put after an unfinished last piece becomes part of it. -/
theorem length_pieces_append (hs : ¬ Terminated sep s) (ht : t ≠ []) :
    (pieces sep (s ++ t)).length + 1 = (pieces sep s).length + (pieces sep t).length := by
  induction s using piecesInduction sep with
  | nil => exact absurd terminated_nil hs
  | last l hl hne =>
      rw [pieces_last hl hne, List.length_singleton]
      clear hs hne
      induction l with
      | nil => rw [List.nil_append, Nat.add_comm]
      | cons c l ih =>
          rw [List.mem_cons, not_or] at hl
          rw [List.cons_append, pieces_cons_ne (Ne.symm hl.1), ← ih hl.2]
          cases hp : pieces sep (l ++ t) with
          | nil => exact absurd hp (pieces_ne_nil (by simp [ht]))
          | cons p ps => rfl
  | piece l s hl ih =>
      rw [List.append_assoc, List.cons_append, pieces_append_sep hl, pieces_append_sep hl,
        List.length_cons, List.length_cons, Nat.add_right_comm, ih, Nat.add_right_comm]
      rintro (rfl | ⟨u, rfl⟩)
      · exact hs (terminated_concat l)
      · exact hs (.inr ⟨l ++ sep :: u, by simp⟩)

/-! ## lines as pieces -/

theorem lines_append_newline {l : Str} (hl : '\n' ∉ l) (s : Str) :
    lines (l ++ '\n' :: s) = stripCr l :: lines s := by
  have happ := lines_append (t := s) (newlineTerminated_append_line [] l)
  have hline := lines_append_line (s := []) (.inl rfl) hl
  rw [List.nil_append] at happ hline
  rw [hline] at happ
  simpa using happ

theorem lines_last {l : Str} (hl : '\n' ∉ l) (hne : l ≠ []) : lines l = [l] := by
  have haux (acc : Str) : linesAux l acc = linesAux [] (l.reverse ++ acc) := by
    clear hne
    induction l generalizing acc with
    | nil => rfl
    | cons c l ih =>
        rw [List.mem_cons, not_or] at hl
        have hcons : linesAux (c :: l) acc = linesAux l (c :: acc) := if_neg (Ne.symm hl.1)
        rw [hcons, ih hl.2, List.reverse_cons, List.append_assoc, List.singleton_append]
  rw [lines, haux, List.append_nil]
  obtain ⟨u, c, rfl⟩ := List.eq_nil_or_concat l |>.resolve_left hne
  simp [linesAux]

/-- What does not look at a carriage return at the end sees the lines as they are in the
file. -/
theorem map_lines {β : Type} {f : Str → β} (hf : ∀ l, f (stripCr l) = f l) (s : Str) :
    (lines s).map f = (pieces '\n' s).map f := by
  induction s using piecesInduction '\n' with
  | nil => rfl
  | last l hl hne => rw [lines_last hl hne, pieces_last hl hne]
  | piece l s hl ih =>
      rw [lines_append_newline hl, pieces_append_sep hl, List.map_cons, List.map_cons, hf, ih]

theorem length_lines (s : Str) : (lines s).length = (pieces '\n' s).length := by
  simpa using congrArg List.length (map_lines (f := fun _ => ()) (fun _ => rfl) s)

/-- The lines that are kept are as they are in the file, when none of them ends in a
carriage return and a newline. -/
theorem filter_lines_eq_iff {keep : Str → Bool} (hkeep : ∀ l, keep (stripCr l) = keep l) (s : Str) :
    (lines s).filter keep = (pieces '\n' s).filter keep ↔
      ∀ l ∈ endedPieces '\n' s, keep l = true → stripCr l = l := by
  induction s using piecesInduction '\n' with
  | nil => simp [endedPieces]
  | last l hl hne => simp [lines_last hl hne, pieces_last hl hne, endedPieces_last hl]
  | piece l s hl ih =>
      rw [lines_append_newline hl, pieces_append_sep hl, endedPieces_append_sep hl,
        List.forall_mem_cons, ← ih, List.filter_cons, List.filter_cons, hkeep]
      cases keep l with
      | true => simp
      | false => simp

end Pfsnitch.Lib
