import Mathlib.Data.List.DropRight

/-!
# Pfsnitch.Lib.Text

Line-oriented text as lists of characters: white space, trimming, splitting
at a separator and splitting into lines.

The functions follow the documented behaviour of the Rust `str` methods of
the same purpose (`trim`, `splitn(2, _)`, `rfind`, `lines`), so a parser
written with those methods is transcribed call by call.  Everything that a
round-trip proof needs is proved once here: a trimmed body survives trailing
blanks, a token without separators is cut off exactly, and a line appended to
newline-terminated text comes back as one more line.
-/

namespace Pfsnitch.Lib

/-- Text: a sequence of Unicode scalar values. -/
abbrev Str := List Char

/-- A property of all characters of a text is decided along the text; the instance
for all characters there are would be tried first. -/
instance (priority := 2000) (s : Str) (p : Char → Prop) [DecidablePred p] :
    Decidable (∀ c ∈ s, p c) :=
  List.decidableBAll p s

/-- A text is looked up in a list of texts by comparing. -/
instance (priority := 2000) (s : Str) (ls : List Str) : Decidable (s ∈ ls) := inferInstance

/-! ## white space and trimming -/

/-- The Unicode `White_Space` property, as `char::is_whitespace` decides it. -/
def isWhitespace (c : Char) : Bool :=
  let n := c.toNat
  (9 ≤ n && n ≤ 13) || n == 0x20 || n == 0x85 || n == 0xA0 || n == 0x1680 ||
    (0x2000 ≤ n && n ≤ 0x200A) || n == 0x2028 || n == 0x2029 || n == 0x202F ||
    n == 0x205F || n == 0x3000

/-- `str::trim`: drop white space at both ends. -/
def trim (s : Str) : Str := (s.dropWhile isWhitespace).rdropWhile isWhitespace

/-- A text is its own trimming exactly when neither end is white space. -/
theorem trim_eq_self_iff {s : Str} :
    trim s = s ↔ (∀ h : s ≠ [], isWhitespace (s.head h) = false) ∧
      ∀ h : s ≠ [], isWhitespace (s.getLast h) = false := by
  constructor
  · intro h
    have hsuf : s.dropWhile isWhitespace <:+ s := List.dropWhile_suffix _
    have hpre : trim s <+: s.dropWhile isWhitespace := List.rdropWhile_prefix _ _
    have hdrop : s.dropWhile isWhitespace = s := by
      apply hsuf.eq_of_length_le
      have hle := hpre.length_le
      rw [h] at hle
      exact hle
    have hr : s.rdropWhile isWhitespace = s := by
      rw [trim, hdrop] at h
      exact h
    refine ⟨fun hne => ?_, fun hne => ?_⟩
    · have := List.dropWhile_eq_self_iff.mp hdrop (List.length_pos_iff.mpr hne)
      simpa [List.head_eq_getElem] using this
    · simpa using List.rdropWhile_eq_self_iff.mp hr hne
  · rintro ⟨hhead, hlast⟩
    have hdrop : s.dropWhile isWhitespace = s := by
      apply List.dropWhile_eq_self_iff.mpr
      intro hpos
      have hne : s ≠ [] := List.length_pos_iff.mp hpos
      simpa [List.head_eq_getElem] using hhead hne
    rw [trim, hdrop]
    exact List.rdropWhile_eq_self_iff.mpr fun hne => by simpa using hlast hne

/-- White space after a trimmed, non-empty text is cut off again. -/
theorem trim_append_of_whitespace {s w : Str} (hs : trim s = s) (hne : s ≠ [])
    (hw : ∀ c ∈ w, isWhitespace c = true) : trim (s ++ w) = s := by
  obtain ⟨hhead, hlast⟩ := trim_eq_self_iff.mp hs
  have hdrop (v : Str) : (s ++ v).dropWhile isWhitespace = s ++ v := by
    apply List.dropWhile_eq_self_iff.mpr
    intro _
    have hfirst := hhead hne
    rw [List.head_eq_getElem] at hfirst
    rw [List.getElem_append_left (List.length_pos_iff.mpr hne)]
    simpa using hfirst
  rw [trim, hdrop]
  induction w using List.reverseRecOn with
  | nil =>
      rw [List.append_nil]
      exact List.rdropWhile_eq_self_iff.mpr fun h => by simpa using hlast h
  | append_singleton w c ih =>
      rw [← List.append_assoc, List.rdropWhile_concat_pos _ _ _ (hw c (by simp))]
      exact ih fun d hd => hw d (by simp [hd])

/-- White space at the end is trimmed. -/
theorem trim_concat {c : Char} (hc : isWhitespace c = true) (s : Str) : trim (s ++ [c]) = trim s := by
  rw [trim, trim, List.dropWhile_append]
  split
  · rename_i hdrop
    rw [List.isEmpty_iff] at hdrop
    rw [hdrop, List.dropWhile_cons_of_pos hc, List.dropWhile_nil]
  · exact List.rdropWhile_concat_pos _ _ _ hc

/-- A token, a separator and a trimmed remainder form a trimmed text. -/
theorem trim_token_append {a b : Str} {c : Char} (ha : ∀ x ∈ a, isWhitespace x = false)
    (hane : a ≠ []) (hb : trim b = b) (hbne : b ≠ []) :
    trim (a ++ c :: b) = a ++ c :: b := by
  refine trim_eq_self_iff.mpr ⟨fun _ => ?_, fun _ => ?_⟩
  · rw [List.head_append_of_ne_nil hane]
    exact ha _ (List.head_mem hane)
  · have : (a ++ c :: b).getLast (by simp) = b.getLast hbne := by
      rw [List.getLast_append_of_ne_nil _ (List.cons_ne_nil c b), List.getLast_cons hbne]
    rw [this]
    exact (trim_eq_self_iff.mp hb).2 hbne

/-- A trimmed text is trimmed with a character in the middle, when what follows is. -/
theorem trim_append_cons {a b : Str} {c : Char} (ha : trim a = a) (hc : isWhitespace c = false)
    (hb : trim b = b) : trim (a ++ c :: b) = a ++ c :: b := by
  refine trim_eq_self_iff.mpr ⟨fun _ => ?_, fun _ => ?_⟩
  · by_cases hane : a = []
    · subst hane
      exact hc
    · rw [List.head_append_of_ne_nil hane]
      exact (trim_eq_self_iff.mp ha).1 hane
  · rw [List.getLast_append_of_ne_nil _ (List.cons_ne_nil c b)]
    by_cases hbne : b = []
    · subst hbne
      exact hc
    · rw [List.getLast_cons hbne]
      exact (trim_eq_self_iff.mp hb).2 hbne

/-- A text without white space is trimmed. -/
theorem trim_eq_self_of_token {s : Str} (h : ∀ c ∈ s, isWhitespace c = false) : trim s = s :=
  trim_eq_self_iff.mpr ⟨fun hne => h _ (List.head_mem hne), fun hne => h _ (List.getLast_mem hne)⟩

/-- Trimming leaves no white space at the ends. -/
theorem trim_trim (s : Str) : trim (trim s) = trim s := by
  have hpre : trim s <+: s.dropWhile isWhitespace := List.rdropWhile_prefix _ _
  refine trim_eq_self_iff.mpr ⟨fun hne => ?_, fun hne => ?_⟩
  · obtain ⟨t, ht⟩ := hpre
    have hdne : s.dropWhile isWhitespace ≠ [] := fun h => by simp [trim, h] at hne
    have hhd : (s.dropWhile isWhitespace).head hdne = (trim s).head hne := by
      simp only [← ht, List.head_append_of_ne_nil hne]
    rw [← hhd]
    exact List.head_dropWhile_not isWhitespace hdne
  · have := List.rdropWhile_last_not isWhitespace (s.dropWhile isWhitespace) hne
    rw [Bool.not_eq_true] at this
    exact this

/-- Trimming only removes characters. -/
theorem mem_of_mem_trim {s : Str} {c : Char} (h : c ∈ trim s) : c ∈ s :=
  (List.dropWhile_suffix isWhitespace).subset ((List.rdropWhile_prefix _ _).subset h)

theorem length_trim_le (s : Str) : (trim s).length ≤ s.length :=
  (List.rdropWhile_prefix _ _).length_le.trans (List.dropWhile_suffix isWhitespace).length_le

/-! ## splitting at a separator -/

/-- The part before the first character satisfying `p`, and the part after it
when there is one: the two results of `splitn(2, p)`. -/
def splitFirst (p : Char → Bool) (s : Str) : Str × Option Str :=
  match s.dropWhile (fun c => !p c) with
  | [] => (s, none)
  | _ :: rest => (s.takeWhile (fun c => !p c), some rest)

/-- A separator-free token is split off exactly. -/
theorem splitFirst_append {p : Char → Bool} {a b : Str} {c : Char}
    (ha : ∀ x ∈ a, p x = false) (hc : p c = true) :
    splitFirst p (a ++ c :: b) = (a, some b) := by
  have hall : ∀ x ∈ a, (!p x) = true := fun x hx => by simp [ha x hx]
  have hdrop : (a ++ c :: b).dropWhile (fun x => !p x) = c :: b := by
    rw [List.dropWhile_append_of_pos hall, List.dropWhile_cons_of_neg (by simp [hc])]
  have htake : (a ++ c :: b).takeWhile (fun x => !p x) = a := by
    rw [List.takeWhile_append_of_pos hall, List.takeWhile_cons_of_neg (by simp [hc]),
      List.append_nil]
  rw [splitFirst, hdrop, htake]

/-- Without a separator there is one part. -/
theorem splitFirst_of_forall_not {p : Char → Bool} {s : Str} (h : ∀ x ∈ s, p x = false) :
    splitFirst p s = (s, none) := by
  have hdrop : s.dropWhile (fun x => !p x) = [] :=
    List.dropWhile_eq_nil_iff.mpr fun x hx => by simp [h x hx]
  rw [splitFirst, hdrop]

/-- The text is split at the first character that satisfies `p`. -/
theorem splitFirst_eq_some_iff {p : Char → Bool} {s a b : Str} :
    splitFirst p s = (a, some b) ↔ (∀ x ∈ a, p x = false) ∧ ∃ c, p c = true ∧ s = a ++ c :: b := by
  constructor
  · intro h
    unfold splitFirst at h
    split at h
    · cases h
    · rename_i c rest hdrop
      obtain ⟨rfl, hrest⟩ := Prod.mk.inj h
      obtain rfl := Option.some.inj hrest
      have hc : p c = true := by
        have hne : s.dropWhile (fun x => !p x) ≠ [] := by simp [hdrop]
        have hhead := List.head_dropWhile_not (fun x => !p x) hne
        simpa [hdrop] using hhead
      refine ⟨fun x hx => by simpa using List.mem_takeWhile_imp hx, c, hc, ?_⟩
      rw [← hdrop, List.takeWhile_append_dropWhile]
  · rintro ⟨ha, c, hc, rfl⟩
    exact splitFirst_append ha hc


/-- The first part is free of separators. -/
theorem not_of_mem_splitFirst {p : Char → Bool} {s : Str} {c : Char} (h : c ∈ (splitFirst p s).1) :
    c ∈ s ∧ p c = false := by
  unfold splitFirst at h
  split at h
  · rename_i hdrop
    refine ⟨h, ?_⟩
    simpa using List.dropWhile_eq_nil_iff.mp hdrop c h
  · refine ⟨(List.takeWhile_prefix _).subset h, ?_⟩
    simpa using List.mem_takeWhile_imp h

/-- The second part is a part. -/
theorem mem_of_splitFirst_eq_some {p : Char → Bool} {s t : Str} {c : Char}
    (h : (splitFirst p s).2 = some t) (hc : c ∈ t) : c ∈ s := by
  unfold splitFirst at h
  split at h
  · cases h
  · rename_i d rest hdrop
    obtain rfl := Option.some.inj h
    exact (List.dropWhile_suffix _).subset (hdrop ▸ List.mem_cons_of_mem d hc)

/-- A character that is no separator goes to the last part. -/
theorem splitFirst_concat {p : Char → Bool} {c : Char} (hc : p c = false) (s : Str) :
    splitFirst p (s ++ [c]) = match splitFirst p s with
      | (a, none) => (a ++ [c], none)
      | (a, some b) => (a, some (b ++ [c])) := by
  cases hdrop : s.dropWhile (fun x => !p x) with
  | nil =>
      have hall : ∀ x ∈ s, p x = false := by simpa using List.dropWhile_eq_nil_iff.mp hdrop
      rw [splitFirst_of_forall_not hall, splitFirst_of_forall_not]
      intro x hx
      cases List.mem_append.mp hx with
      | inl hx => exact hall x hx
      | inr hx => exact List.mem_singleton.mp hx ▸ hc
  | cons d rest =>
      have hd : p d = true := by
        have hne : s.dropWhile (fun x => !p x) ≠ [] := by simp [hdrop]
        simpa [hdrop] using List.head_dropWhile_not (fun x => !p x) hne
      have hs : s = s.takeWhile (fun x => !p x) ++ d :: rest := by
        rw [← hdrop, List.takeWhile_append_dropWhile]
      have htake : ∀ x ∈ s.takeWhile (fun x => !p x), p x = false := fun x hx => by
        simpa using List.mem_takeWhile_imp hx
      generalize s.takeWhile (fun x => !p x) = u at hs htake
      subst hs
      rw [List.append_assoc, List.cons_append, splitFirst_append htake hd,
        splitFirst_append htake hd]

/-- The parts around the last occurrence of `c` (`rfind` and the two slices). -/
def splitLast (c : Char) (s : Str) : Option (Str × Str) :=
  match splitFirst (· == c) s.reverse with
  | (tail, some head) => some (head.reverse, tail.reverse)
  | (_, none) => none

theorem splitLast_append {a b : Str} {c : Char} (hb : c ∉ b) :
    splitLast c (a ++ c :: b) = some (a, b) := by
  have hrev : (a ++ c :: b).reverse = b.reverse ++ c :: a.reverse := by simp
  have hsplit : splitFirst (· == c) (b.reverse ++ c :: a.reverse) =
      (b.reverse, some a.reverse) := by
    apply splitFirst_append
    · intro x hx
      simp only [List.mem_reverse] at hx
      simpa using fun h : x = c => hb (h ▸ hx)
    · simp
  rw [splitLast, hrev, hsplit]
  simp

theorem splitLast_eq_some_iff {c : Char} {s a b : Str} :
    splitLast c s = some (a, b) ↔ s = a ++ c :: b ∧ c ∉ b := by
  constructor
  · intro h
    unfold splitLast at h
    split at h
    · rename_i tail head hsplit
      obtain ⟨rfl, rfl⟩ := Prod.mk.inj (Option.some.inj h)
      obtain ⟨htail, d, hd, hs⟩ := splitFirst_eq_some_iff.mp hsplit
      obtain rfl : d = c := by simpa using hd
      refine ⟨?_, fun hmem => by simpa using htail d (List.mem_reverse.mp hmem)⟩
      rw [← List.reverse_reverse s, hs]
      simp
    · cases h
  · rintro ⟨rfl, hb⟩
    exact splitLast_append hb


/-- `str::strip_prefix`. -/
def stripPrefix (pre s : Str) : Option Str :=
  if pre.isPrefixOf s then some (s.drop pre.length) else none

theorem stripPrefix_eq_some {pre s t : Str} (h : stripPrefix pre s = some t) : s = pre ++ t := by
  unfold stripPrefix at h
  split at h
  · rename_i hpre
    obtain ⟨u, rfl⟩ := List.isPrefixOf_iff_prefix.mp hpre
    simpa using h
  · cases h

/-! ## lines -/

/-- One line ending is `"\n"` or `"\r\n"`. -/
def stripCr (l : Str) : Str :=
  match l.reverse with
  | '\r' :: r => r.reverse
  | _ => l

/-- `str::lines`, with the current line accumulated in reverse.  A final line
without a line ending is kept as it is. -/
def linesAux : Str → Str → List Str
  | [], [] => []
  | [], acc => [acc.reverse]
  | c :: s, acc =>
    if c = '\n' then stripCr acc.reverse :: linesAux s [] else linesAux s (c :: acc)

/-- `str::lines`. -/
def lines (s : Str) : List Str := linesAux s []

@[simp] theorem lines_nil : lines [] = [] := rfl

/-- Text after a newline contributes its own lines. -/
theorem linesAux_append (a b acc : Str) :
    linesAux (a ++ '\n' :: b) acc = linesAux (a ++ ['\n']) acc ++ linesAux b [] := by
  induction a generalizing acc with
  | nil => simp [linesAux]
  | cons c a ih =>
      by_cases hc : c = '\n'
      · simp [linesAux, hc, ih]
      · simp [linesAux, hc, ih]

/-- A single line without a newline is one line. -/
theorem linesAux_single {l : Str} (h : '\n' ∉ l) (acc : Str) :
    linesAux (l ++ ['\n']) acc = [stripCr (acc.reverse ++ l)] := by
  induction l generalizing acc with
  | nil => simp [linesAux]
  | cons c l ih =>
      have hc : c ≠ '\n' := fun hc => h (by simp [hc])
      have hl : '\n' ∉ l := fun hl => h (by simp [hl])
      simp [linesAux, hc, ih hl (c :: acc)]

/-- There is no newline in a line. -/
theorem newline_not_mem_linesAux {s acc l : Str} (hacc : '\n' ∉ acc) (hl : l ∈ linesAux s acc) :
    '\n' ∉ l := by
  induction s generalizing acc with
  | nil =>
      cases acc with
      | nil => cases hl
      | cons c acc =>
          obtain rfl := List.mem_singleton.mp hl
          rwa [List.mem_reverse]
  | cons c s ih =>
      rw [linesAux] at hl
      split at hl
      · obtain rfl | hl := List.mem_cons.mp hl
        · intro hmem
          unfold stripCr at hmem
          split at hmem
          · rename_i r hr
            have hmem' : '\n' ∈ acc.reverse.reverse := hr ▸ List.mem_cons_of_mem _ (by simpa using hmem)
            simp [hacc] at hmem'
          · exact hacc (List.mem_reverse.mp hmem)
        · exact ih List.not_mem_nil hl
      · rename_i hc
        refine ih ?_ hl
        rw [List.mem_cons, not_or]
        exact ⟨fun h => hc h.symm, hacc⟩

theorem newline_not_mem_of_mem_lines {s l : Str} (hl : l ∈ lines s) : '\n' ∉ l :=
  newline_not_mem_linesAux List.not_mem_nil hl

/-- Text whose last line is complete: empty, or ending in a newline. -/
def NewlineTerminated (s : Str) : Prop := s = [] ∨ ∃ t, s = t ++ ['\n']

instance (s : Str) : Decidable (NewlineTerminated s) :=
  decidable_of_iff (s = [] ∨ s.getLast? = some '\n') (by rw [List.getLast?_eq_some_iff]; rfl)

theorem newlineTerminated_append_line (s l : Str) : NewlineTerminated (s ++ l ++ ['\n']) :=
  Or.inr ⟨s ++ l, rfl⟩

/-- Lines of a newline-terminated text followed by more text. -/
theorem lines_append {s t : Str} (hs : NewlineTerminated s) :
    lines (s ++ t) = lines s ++ lines t := by
  rcases hs with rfl | ⟨u, rfl⟩
  · simp
  · have h := linesAux_append u t []
    simp only [lines, List.append_assoc, List.singleton_append]
    exact h

/-- Appending one newline-free line to newline-terminated text adds that line. -/
theorem lines_append_line {s l : Str} (hs : NewlineTerminated s) (hl : '\n' ∉ l) :
    lines (s ++ l ++ ['\n']) = lines s ++ [stripCr l] := by
  rw [List.append_assoc, lines_append hs]
  congr 1
  exact linesAux_single hl []

/-- A line that does not end in a carriage return is kept whole. -/
theorem stripCr_of_getLast {l : Str} (h : ∀ hne : l ≠ [], l.getLast hne ≠ '\r') :
    stripCr l = l := by
  unfold stripCr
  split
  · next r hr =>
    have hl : l = r.reverse ++ ['\r'] := by
      have := congrArg List.reverse hr
      simpa using this
    exact absurd (by simp [hl]) (h (by simp [hl]))
  · rfl

/-- A carriage return is stripped from the end, or nothing is. -/
theorem stripCr_cases (l : Str) : stripCr l = l ∨ l = stripCr l ++ ['\r'] := by
  unfold stripCr
  split
  · rename_i r hr
    right
    have h := congrArg List.reverse hr
    simpa using h
  · exact .inl rfl

/-! ## lines written out -/

/-- Each line with its newline. -/
def unlines (ls : List Str) : Str := ls.flatMap (· ++ ['\n'])

theorem unlines_concat (ls : List Str) (l : Str) :
    unlines (ls ++ [l]) = unlines ls ++ l ++ ['\n'] := by
  simp [unlines]

theorem newlineTerminated_unlines (ls : List Str) : NewlineTerminated (unlines ls) := by
  obtain rfl | ⟨init, l, rfl⟩ := List.eq_nil_or_concat ls
  · exact .inl rfl
  · rw [List.concat_eq_append, unlines_concat]
    exact newlineTerminated_append_line _ _

/-- Lines that were written out are read back, less a carriage return each. -/
theorem lines_unlines {ls : List Str} (h : ∀ l ∈ ls, '\n' ∉ l) :
    lines (unlines ls) = ls.map stripCr := by
  induction ls using List.reverseRecOn with
  | nil => rfl
  | append_singleton ls l ih =>
      have hl : '\n' ∉ l := h l (by simp)
      rw [unlines_concat, lines_append_line (newlineTerminated_unlines ls) hl,
        ih fun l hl => h l (List.mem_append_left _ hl), List.map_append, List.map_singleton]

end Pfsnitch.Lib
