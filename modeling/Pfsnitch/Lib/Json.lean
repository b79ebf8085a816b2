import Pfsnitch.Lib.Numeral

/-!
# Pfsnitch.Lib.Json

JSON: a strict reader, and rules for the text that a program writes by hand.

`parse` reads one value with white space around it, as the grammar of JSON has it: no
character below the space stands unescaped in a string, no number starts with a
superfluous zero, and nothing is left over.  A number is its mantissa and its power of ten.

`Written txt v` says that a text reads as a value wherever it stands.  There is a rule for
each kind of value, with any white space between the parts and any way of escaping that the
reader undoes, so a text that is put together piece by piece is followed piece by piece.
-/

namespace Pfsnitch.Lib

/-- A value; `number m e` is `m * 10 ^ e`, and an object has its fields in order. -/
inductive Json where
  | null
  | bool (b : Bool)
  | number (m e : Int)
  | string (s : Str)
  | array (vs : List Json)
  | object (fields : List (Str × Json))

namespace Json

/-! ## white space -/

def isBlank (c : Char) : Bool := c == ' ' || c == '\t' || c == '\n' || c == '\r'

def skipBlank (s : Str) : Str := s.dropWhile isBlank

/-! ## strings -/

/-- Four hexadecimal digits. -/
def hex4 : Str → Option (Nat × Str)
  | a :: b :: c :: d :: t =>
    if [a, b, c, d].all (isDigitOf 16) then some (digitsValue 16 [a, b, c, d], t) else none
  | _ => none

/-- What follows a high surrogate. -/
def lowSurrogate : Str → Option (Nat × Str)
  | '\\' :: 'u' :: t => (hex4 t).filter fun (w, _) => 0xDC00 ≤ w ∧ w < 0xE000
  | _ => none

/-- A character by its number, or by two of them; half a pair is none. -/
def unicode (s : Str) : Option (Char × Str) :=
  (hex4 s).bind fun (u, t) =>
    if 0xD800 ≤ u ∧ u < 0xDC00 then
      (lowSurrogate t).map fun (w, t) =>
        (Char.ofNat (0x10000 + (u - 0xD800) * 0x400 + (w - 0xDC00)), t)
    else if 0xDC00 ≤ u ∧ u < 0xE000 then none
    else some (Char.ofNat u, t)

/-- A character by its letter. -/
def escaped (c : Char) : Option Char :=
  match c with
  | '"' => some '"'
  | '\\' => some '\\'
  | '/' => some '/'
  | 'b' => some (Char.ofNat 8)
  | 'f' => some (Char.ofNat 12)
  | 'n' => some '\n'
  | 'r' => some '\r'
  | 't' => some '\t'
  | _ => none

/-- One character of a string. -/
def char : Str → Option (Char × Str)
  | '\\' :: 'u' :: t => unicode t
  | '\\' :: c :: t => (escaped c).map fun d => (d, t)
  | c :: t => if c = '\\' ∨ c = '"' ∨ c.toNat < 0x20 then none else some (c, t)
  | [] => none

/-- The characters of a string, up to the closing quote. -/
def chars : Nat → Str → Option (Str × Str)
  | 0, _ => none
  | _ + 1, '"' :: t => some ([], t)
  | n + 1, s => (char s).bind fun (c, t) => (chars n t).map fun (cs, t) => (c :: cs, t)

def quoted (s : Str) : Option (Str × Str) := chars (s.length + 1) s

/-! ## numbers -/

/-- One or more digits. -/
def digits (s : Str) : Option (Str × Str) :=
  let ds := s.takeWhile (isDigitOf 10)
  if ds = [] then none else some (ds, s.dropWhile (isDigitOf 10))

def integer (s : Str) : Option (Str × Str) :=
  (digits s).filter fun (ds, _) => ds.head? ≠ some '0' ∨ ds = ['0']

def fraction : Str → Option (Str × Str)
  | '.' :: t => digits t
  | t => some ([], t)

/-- The digits behind a sign, if there is one. -/
def signed (number : Str → Option (Str × Str)) : Str → Option (Bool × Str × Str)
  | '-' :: t => (number t).map fun r => (true, r)
  | t => (number t).map fun r => (false, r)

def exponentDigits : Str → Option (Bool × Str × Str)
  | '+' :: t => (digits t).map fun r => (false, r)
  | t => signed digits t

def exponent : Str → Option (Int × Str)
  | c :: t =>
    if c = 'e' ∨ c = 'E' then
      (exponentDigits t).map fun (neg, ds, t) =>
        ((if neg then -1 else 1) * (digitsValue 10 ds : Int), t)
    else some (0, c :: t)
  | [] => some (0, [])

def numeral (s : Str) : Option (Json × Str) :=
  (signed integer s).bind fun (neg, int, t) =>
    (fraction t).bind fun (frac, t) =>
      (exponent t).map fun (exp, t) =>
        (.number ((if neg then -1 else 1) * (digitsValue 10 (int ++ frac) : Int))
          (exp - frac.length), t)

/-! ## values -/

/-- A value that holds no other. -/
def scalar (s : Str) : Option (Json × Str) :=
  match s with
  | '"' :: t => (quoted t).map fun (s, t) => (.string s, t)
  | 'n' :: t => (stripPrefix "ull".toList t).map fun t => (.null, t)
  | 't' :: t => (stripPrefix "rue".toList t).map fun t => (.bool true, t)
  | 'f' :: t => (stripPrefix "alse".toList t).map fun t => (.bool false, t)
  | s => numeral s

/-- The name of a field, and the text after its colon. -/
def fieldName (s : Str) : Option (Str × Str) :=
  match skipBlank s with
  | '"' :: t =>
    (quoted t).bind fun (name, t) =>
      match skipBlank t with
      | ':' :: t => some (name, t)
      | _ => none
  | _ => none

mutual

/-- A value, and the text after it. -/
def value : Nat → Str → Option (Json × Str)
  | 0, _ => none
  | n + 1, s =>
    match skipBlank s with
    | '[' :: t =>
      match skipBlank t with
      | ']' :: t => some (.array [], t)
      | _ => (elements n t).map fun (vs, t) => (.array vs, t)
    | '{' :: t =>
      match skipBlank t with
      | '}' :: t => some (.object [], t)
      | _ => (members n t).map fun (fs, t) => (.object fs, t)
    | t => scalar t

/-- The values of an array, and the text after its bracket. -/
def elements : Nat → Str → Option (List Json × Str)
  | 0, _ => none
  | n + 1, s =>
    (value n s).bind fun (v, t) =>
      match skipBlank t with
      | ',' :: t => (elements n t).map fun (vs, t) => (v :: vs, t)
      | ']' :: t => some ([v], t)
      | _ => none

/-- The fields of an object, and the text after its brace. -/
def members : Nat → Str → Option (List (Str × Json) × Str)
  | 0, _ => none
  | n + 1, s =>
    (fieldName s).bind fun (name, t) =>
      (value n t).bind fun (v, t) =>
        match skipBlank t with
        | ',' :: t => (members n t).map fun (fs, t) => ((name, v) :: fs, t)
        | '}' :: t => some ([(name, v)], t)
        | _ => none

end

/-- The one value of a text. -/
def parse (s : Str) : Option Json :=
  (value (2 * s.length + 2) s).bind fun (v, t) => if skipBlank t = [] then some v else none

example : (parse "[-1.5e2, \"\\u00e9\\ud83d\\ude00\", [ ], null]\n".toList).isSome = true := by
  decide +kernel

example : (parse "[01]".toList).isNone = true ∧ (parse "[1,]".toList).isNone = true ∧
    (parse "\"a\nb\"".toList).isNone = true ∧ (parse "\"\\ud83d\"".toList).isNone = true := by
  decide +kernel

/-! ## taking a value apart -/

/-- The field of a name. -/
def field (name : Str) : Json → Option Json
  | .object fields => fields.lookup name
  | _ => none

def asString : Json → Option Str
  | .string s => some s
  | _ => none

def asNat : Json → Option Nat
  | .number m 0 => if 0 ≤ m then some m.toNat else none
  | _ => none

def asArray : Json → Option (List Json)
  | .array vs => some vs
  | _ => none

/-- A value that may be absent. -/
def orNull {α : Type} (read : Json → Option α) : Json → Option (Option α)
  | .null => some none
  | v => (read v).map some

/-! ## white space -/

variable {s t txt body w w' rest name : Str} {c : Char} {n : Nat} {v : Json} {vs : List Json}
  {fs : List (Str × Json)}

def Blank (w : Str) : Prop := ∀ c ∈ w, isBlank c = true

instance (w : Str) : Decidable (Blank w) := inferInstanceAs (Decidable (∀ c ∈ w, _))

theorem skipBlank_append (hw : Blank w) : skipBlank (w ++ s) = skipBlank s :=
  List.dropWhile_append_of_pos hw

theorem skipBlank_cons (hc : isBlank c = false) : skipBlank (c :: s) = c :: s :=
  List.dropWhile_cons_of_neg (by simp [hc])

/-- White space and a mark. -/
theorem skipBlank_mark (hw : Blank w) (hc : isBlank c = false) :
    skipBlank (w ++ c :: s) = c :: s := by
  rw [skipBlank_append hw, skipBlank_cons hc]

theorem value_blank (hw : Blank w) : value n (w ++ s) = value n s := by
  cases n with
  | zero => simp [value]
  | succ n => rw [value, value, skipBlank_append hw]

theorem elements_blank (hw : Blank w) : elements n (w ++ s) = elements n s := by
  cases n with
  | zero => simp only [elements]
  | succ n => simp only [elements, value_blank hw]

/-! ## what is written -/

/-- A character that no numeral goes on with. -/
def Delimits (c : Char) : Prop := isDigitOf 10 c = false ∧ c ≠ '.' ∧ c ≠ 'e' ∧ c ≠ 'E'

instance (c : Char) : Decidable (Delimits c) := inferInstanceAs (Decidable (_ ∧ _))

/-- Text before which a numeral ends. -/
def Ends (rest : Str) : Prop := ∀ c ∈ rest.head?, Delimits c

/-- The text reads as the value, whatever follows it. -/
def Written (txt : Str) (v : Json) : Prop :=
  ∀ n rest, 2 * txt.length ≤ n → Ends rest → value n (txt ++ rest) = some (v, rest)

/-- The rest of an array, with its bracket. -/
def Items (body : Str) (vs : List Json) : Prop :=
  ∀ n rest, 2 * body.length + 1 ≤ n → elements n (body ++ rest) = some (vs, rest)

/-- The rest of an object, with its brace. -/
def Fields (body : Str) (fs : List (Str × Json)) : Prop :=
  ∀ n rest, 2 * body.length + 1 ≤ n → members n (body ++ rest) = some (fs, rest)

/-- `esc` is a way of writing the character in a string. -/
structure Escapes (esc : Char → Str) (c : Char) : Prop where
  head : (esc c).head? ≠ some '"'
  char : ∀ t, char (esc c ++ t) = some (c, t)

/-- A text that stands as it is. -/
def Plain (s : Str) : Prop := ∀ c ∈ s, c ≠ '\\' ∧ c ≠ '"' ∧ 0x20 ≤ c.toNat

instance (s : Str) : Decidable (Plain s) := inferInstanceAs (Decidable (∀ c ∈ s, _))

theorem delimits_of_blank (hc : isBlank c = true) : Delimits c := by
  simp only [isBlank, Bool.or_eq_true, beq_iff_eq] at hc
  obtain ((rfl | rfl) | rfl) | rfl := hc
  all_goals decide

theorem ends_blank (hw : Blank w) (h : Ends rest) : Ends (w ++ rest) := by
  cases w with
  | nil => exact h
  | cons b w =>
      intro c hc
      obtain rfl : b = c := by simpa using hc
      exact delimits_of_blank (hw b (by simp))

theorem ends_mark (hw : Blank w) (hc : Delimits c) : Ends (w ++ c :: s) :=
  ends_blank hw fun d hd => by
    obtain rfl : c = d := by simpa using hd
    exact hc

theorem written_blank (hw : Blank w) (h : Written txt v) : Written (w ++ txt) v := by
  intro n rest hn hrest
  rw [List.append_assoc, value_blank hw]
  refine h n rest ?_ hrest
  rw [List.length_append] at hn
  omega

/-- A text that is a value, and white space after it. -/
theorem parse_of_written (h : Written txt v) (hw : Blank w) : parse (txt ++ w) = some v := by
  have hskip : skipBlank w = [] := List.dropWhile_eq_nil_iff.mpr hw
  have hends : Ends w := by
    have hnil : Ends (w ++ []) := ends_blank hw (by simp [Ends])
    rwa [List.append_nil] at hnil
  have hvalue : value (2 * (txt ++ w).length + 2) (txt ++ w) = some (v, w) :=
    h _ w (by rw [List.length_append]; omega) hends
  simp only [parse, hvalue, Option.bind_some, hskip, if_true]

/-! ## values that hold no other -/

/-- A value that starts with neither bracket nor brace. -/
theorem value_scalar (hblank : isBlank c = false) (hc : c ≠ '[' ∧ c ≠ '{') :
    value (n + 1) (c :: t) = scalar (c :: t) := by
  rw [value, skipBlank_cons hblank]
  split
  · rename_i h
    exact absurd (List.cons.inj h).1 hc.1
  · rename_i h
    exact absurd (List.cons.inj h).1 hc.2
  · rfl

theorem scalar_numeral (hc : c ≠ '"' ∧ c ≠ 'n' ∧ c ≠ 't' ∧ c ≠ 'f') :
    scalar (c :: t) = numeral (c :: t) := by
  unfold scalar
  split
  · rename_i h
    exact absurd (List.cons.inj h).1 hc.1
  · rename_i h
    exact absurd (List.cons.inj h).1 hc.2.1
  · rename_i h
    exact absurd (List.cons.inj h).1 hc.2.2.1
  · rename_i h
    exact absurd (List.cons.inj h).1 hc.2.2.2
  · rfl

theorem written_null : Written "null".toList .null := by
  intro n rest hn _
  have hlen : "null".toList.length = 4 := rfl
  obtain ⟨n, rfl⟩ : ∃ m, n = m + 1 := ⟨n - 1, by omega⟩
  rfl

/-- A run of digits is taken whole. -/
theorem digits_append {ds : Str} (hne : ds ≠ []) (hds : ∀ c ∈ ds, isDigitOf 10 c = true)
    (hrest : Ends rest) : digits (ds ++ rest) = some (ds, rest) := by
  have hstop : rest.takeWhile (isDigitOf 10) = [] ∧ rest.dropWhile (isDigitOf 10) = rest := by
    cases rest with
    | nil => exact ⟨rfl, rfl⟩
    | cons c r => simp [(hrest c (by simp)).1]
  have htake : (ds ++ rest).takeWhile (isDigitOf 10) = ds := by
    rw [List.takeWhile_append_of_pos hds, hstop.1, List.append_nil]
  have hdrop : (ds ++ rest).dropWhile (isDigitOf 10) = rest := by
    rw [List.dropWhile_append_of_pos hds, hstop.2]
  simp only [digits, htake, hdrop, if_neg hne]

theorem integer_toDigits {k : Nat} (hrest : Ends rest) :
    integer (Nat.toDigits 10 k ++ rest) = some (Nat.toDigits 10 k, rest) := by
  have hdigit : ∀ c ∈ Nat.toDigits 10 k, isDigitOf 10 c = true :=
    fun c hc => isDigitOf_of_mem_toDigits (by decide) (by decide) hc
  have hzero : (Nat.toDigits 10 k).head? ≠ some '0' ∨ Nat.toDigits 10 k = ['0'] := by
    rcases Nat.eq_zero_or_pos k with rfl | hk
    · exact .inr rfl
    · exact .inl (head_toDigits_ne_zero (by decide) (by decide) hk)
  rw [integer, digits_append Nat.toDigits_ne_nil hdigit hrest, Option.filter_some,
    if_pos (by simpa using hzero)]

theorem fraction_of_ends (hrest : Ends rest) : fraction rest = some ([], rest) := by
  unfold fraction
  split
  · exact absurd rfl (hrest '.' (by simp)).2.1
  · rfl

theorem exponent_of_ends (hrest : Ends rest) : exponent rest = some (0, rest) := by
  cases rest with
  | nil => rfl
  | cons c t =>
      obtain ⟨-, -, he, hE⟩ := hrest c (by simp)
      simp [exponent, he, hE]

/-- The decimal numeral of a natural number. -/
theorem written_nat (k : Nat) : Written (Nat.toDigits 10 k) (.number k 0) := by
  intro n rest hn hrest
  have hpos : 0 < (Nat.toDigits 10 k).length := Nat.length_toDigits_pos
  obtain ⟨n, rfl⟩ : ∃ m, n = m + 1 := ⟨n - 1, by omega⟩
  have hint := integer_toDigits (k := k) hrest
  have hval : digitsValue 10 (Nat.toDigits 10 k) = k :=
    digitsValue_toDigits (by decide) (by decide) _
  cases hds : Nat.toDigits 10 k with
  | nil => exact absurd hds Nat.toDigits_ne_nil
  | cons d ds =>
      have hd : isDigitOf 10 d = true :=
        isDigitOf_of_mem_toDigits (n := k) (by decide) (by decide) (by simp [hds])
      have hne {c : Char} (hc : isDigitOf 10 c = false) : d ≠ c := by
        rintro rfl
        simp [hd] at hc
      have hblank : isBlank d = false := by
        simp [isBlank, hne (c := ' ') rfl, hne (c := '\t') rfl, hne (c := '\n') rfl,
          hne (c := '\r') rfl]
      have hsigned : signed integer (d :: (ds ++ rest)) = some (false, d :: ds, rest) := by
        rw [hds, List.cons_append] at hint
        unfold signed
        split
        · rename_i h
          exact absurd (List.cons.inj h).1 (hne rfl)
        · rw [hint, Option.map_some]
      rw [List.cons_append, value_scalar hblank ⟨hne rfl, hne rfl⟩,
        scalar_numeral ⟨hne rfl, hne rfl, hne rfl, hne rfl⟩]
      simp [numeral, hsigned, fraction_of_ends hrest, exponent_of_ends hrest, ← hds, hval]

theorem Escapes.ne_nil {esc : Char → Str} (h : Escapes esc c) : esc c ≠ [] := by
  intro hnil
  have hchar : Json.char (esc c ++ []) = some (c, []) := h.char []
  rw [hnil] at hchar
  cases hchar

theorem chars_cons (hc : Json.char s = some (c, t)) (hhead : s.head? ≠ some '"') :
    chars (n + 1) s = (chars n t).map fun (cs, t) => (c :: cs, t) := by
  rw [chars, hc, Option.bind_some]
  rintro t rfl
  exact hhead rfl

/-- A string is read back, however its characters are written. -/
theorem chars_flatMap {esc : Char → Str} (h : ∀ c ∈ s, Escapes esc c) (hn : s.length < n) :
    chars n (s.flatMap esc ++ '"' :: t) = some (s, t) := by
  induction s generalizing n with
  | nil =>
      obtain ⟨n, rfl⟩ : ∃ m, n = m + 1 := ⟨n - 1, by omega⟩
      rfl
  | cons c s ih =>
      obtain ⟨n, rfl⟩ : ∃ m, n = m + 1 := ⟨n - 1, by omega⟩
      have hc : Escapes esc c := h c (by simp)
      have hhead : (esc c ++ (s.flatMap esc ++ '"' :: t)).head? ≠ some '"' := by
        rw [List.head?_append_of_ne_nil _ hc.ne_nil]
        exact hc.head
      have hs : chars n (s.flatMap esc ++ '"' :: t) = some (s, t) :=
        ih (fun d hd => h d (by simp [hd])) (by simpa using hn)
      rw [List.flatMap_cons, List.append_assoc, chars_cons (hc.char _) hhead, hs, Option.map_some]

theorem length_le_flatMap {esc : Char → Str} (h : ∀ c ∈ s, Escapes esc c) :
    s.length ≤ (s.flatMap esc).length := by
  induction s with
  | nil => exact Nat.le_refl 0
  | cons c s ih =>
      have hc : 0 < (esc c).length := List.length_pos_iff.mpr (h c (by simp)).ne_nil
      have hs : s.length ≤ (s.flatMap esc).length := ih fun d hd => h d (by simp [hd])
      rw [List.flatMap_cons, List.length_append, List.length_cons]
      omega

theorem quoted_flatMap {esc : Char → Str} (h : ∀ c ∈ s, Escapes esc c) :
    quoted (s.flatMap esc ++ '"' :: t) = some (s, t) := by
  have hlen : s.length ≤ (s.flatMap esc).length := length_le_flatMap h
  refine chars_flatMap h ?_
  rw [List.length_append]
  omega

theorem written_string {esc : Char → Str} (h : ∀ c ∈ s, Escapes esc c) :
    Written ('"' :: (s.flatMap esc ++ ['"'])) (.string s) := by
  intro n rest hn _
  rw [List.length_cons] at hn
  obtain ⟨n, rfl⟩ : ∃ m, n = m + 1 := ⟨n - 1, by omega⟩
  rw [List.cons_append, List.append_assoc, List.singleton_append,
    value_scalar (by decide) (by decide), scalar, quoted_flatMap h, Option.map_some]

/-- A plain text stands for itself. -/
theorem Plain.escapes (h : Plain s) : ∀ c ∈ s, Escapes (fun c => [c]) c := by
  intro c hc
  obtain ⟨hslash, hquote, hlow⟩ := h c hc
  refine ⟨by simpa using hquote, fun t => ?_⟩
  rw [List.singleton_append, Json.char]
  · rw [if_neg]
    rintro (h | h | h)
    · exact hslash h
    · exact hquote h
    · omega
  · rintro _ rfl
    exact absurd rfl hslash
  · rintro _ _ rfl
    exact absurd rfl hslash

theorem quoted_plain (h : Plain s) : quoted (s ++ '"' :: t) = some (s, t) := by
  have hflat : s.flatMap (fun c => [c]) = s := List.flatMap_singleton' s
  have hread := quoted_flatMap (t := t) h.escapes
  rwa [hflat] at hread

theorem written_plain (h : Plain s) : Written ('"' :: (s ++ ['"'])) (.string s) := by
  have hflat : s.flatMap (fun c => [c]) = s := List.flatMap_singleton' s
  have hwritten := written_string h.escapes
  rwa [hflat] at hwritten

/-! ## arrays -/

/-- No value starts with a closing bracket. -/
theorem value_close (h : skipBlank s = ']' :: t) : value n s = none := by
  cases n with
  | zero => rw [value]
  | succ n =>
      rw [value, h]
      rfl

theorem not_close_of_elements {r : List Json × Str} (h : elements n s = some r) :
    skipBlank s ≠ ']' :: t := by
  intro hclose
  cases n with
  | zero => simp [elements] at h
  | succ n => simp [elements, value_close hclose] at h

theorem items_last (h : Written txt v) (hw : Blank w) : Items (txt ++ (w ++ [']'])) [v] := by
  intro n rest hn
  simp only [List.length_append, List.length_singleton] at hn
  obtain ⟨n, rfl⟩ : ∃ m, n = m + 1 := ⟨n - 1, by omega⟩
  have hread : value n (txt ++ (w ++ ']' :: rest)) = some (v, w ++ ']' :: rest) :=
    h n _ (by omega) (ends_mark hw (by decide))
  rw [List.append_assoc, List.append_assoc, List.singleton_append, elements, hread,
    Option.bind_some]
  simp only [skipBlank_mark hw (show isBlank ']' = false from rfl)]

theorem items_cons (h : Written txt v) (hbody : Items body vs) :
    Items (txt ++ ',' :: body) (v :: vs) := by
  intro n rest hn
  simp only [List.length_append, List.length_cons] at hn
  obtain ⟨n, rfl⟩ : ∃ m, n = m + 1 := ⟨n - 1, by omega⟩
  have hread : value n (txt ++ ',' :: (body ++ rest)) = some (v, ',' :: (body ++ rest)) :=
    h n _ (by omega) (ends_mark (w := []) (by simp [Blank]) (by decide))
  have hrest : elements n (body ++ rest) = some (vs, rest) := hbody n rest (by omega)
  rw [List.append_assoc, List.cons_append, elements, hread, Option.bind_some]
  simp only [skipBlank_cons (show isBlank ',' = false from rfl), hrest, Option.map_some]

theorem items_blank (hw : Blank w) (h : Items body vs) : Items (w ++ body) vs := by
  intro n rest hn
  rw [List.length_append] at hn
  rw [List.append_assoc, elements_blank hw, h n rest (by omega)]

theorem written_array (h : Items body vs) : Written ('[' :: body) (.array vs) := by
  intro n rest hn _
  rw [List.length_cons] at hn
  obtain ⟨n, rfl⟩ : ∃ m, n = m + 1 := ⟨n - 1, by omega⟩
  have hread : elements n (body ++ rest) = some (vs, rest) := h n rest (by omega)
  rw [List.cons_append, value, skipBlank_cons (by rfl)]
  split
  · rename_i heq
    obtain rfl := (List.cons.inj heq).2
    split
    · rename_i hclose
      exact absurd hclose (not_close_of_elements hread)
    · rw [hread, Option.map_some]
  · rename_i heq
    exact absurd (List.cons.inj heq).1 (by decide)
  · rename_i hne _
    exact absurd rfl (hne _)

theorem written_array_nil (hw : Blank w) : Written ('[' :: (w ++ [']'])) (.array []) := by
  intro n rest hn _
  rw [List.length_cons] at hn
  obtain ⟨n, rfl⟩ : ∃ m, n = m + 1 := ⟨n - 1, by omega⟩
  rw [List.cons_append, List.append_assoc, List.singleton_append, value, skipBlank_cons (by rfl)]
  simp only [skipBlank_mark hw (show isBlank ']' = false from rfl)]

/-! ## objects -/

/-- The name of a field, with white space before it, and what follows its colon. -/
def fieldHead (w name t : Str) : Str := w ++ '"' :: (name ++ '"' :: ':' :: t)

theorem fieldName_fieldHead (hw : Blank w) (hname : Plain name) :
    fieldName (fieldHead w name t) = some (name, t) := by
  rw [fieldName, fieldHead, skipBlank_mark hw (by rfl)]
  simp only [quoted_plain hname, Option.bind_some,
    skipBlank_cons (show isBlank ':' = false from rfl)]

theorem fieldHead_append : fieldHead w name s ++ t = fieldHead w name (s ++ t) := by
  simp [fieldHead]

theorem length_lt_fieldHead : t.length < (fieldHead w name t).length := by
  simp only [fieldHead, List.length_append, List.length_cons]
  omega

theorem fields_last (hw : Blank w) (hname : Plain name) (hv : Written txt v) (hw' : Blank w') :
    Fields (fieldHead w name (txt ++ (w' ++ ['}']))) [(name, v)] := by
  intro n rest hn
  have hlen : (txt ++ (w' ++ ['}'])).length < (fieldHead w name (txt ++ (w' ++ ['}']))).length :=
    length_lt_fieldHead
  rw [List.length_append] at hlen
  obtain ⟨n, rfl⟩ : ∃ m, n = m + 1 := ⟨n - 1, by omega⟩
  have hread : value n (txt ++ (w' ++ '}' :: rest)) = some (v, w' ++ '}' :: rest) :=
    hv n _ (by omega) (ends_mark hw' (by decide))
  rw [fieldHead_append, List.append_assoc, List.append_assoc, List.singleton_append, members,
    fieldName_fieldHead hw hname]
  simp only [Option.bind_some, hread, skipBlank_mark hw' (show isBlank '}' = false from rfl)]

theorem fields_cons (hw : Blank w) (hname : Plain name) (hv : Written txt v)
    (hbody : Fields body fs) :
    Fields (fieldHead w name (txt ++ ',' :: body)) ((name, v) :: fs) := by
  intro n rest hn
  have hlen : (txt ++ ',' :: body).length < (fieldHead w name (txt ++ ',' :: body)).length :=
    length_lt_fieldHead
  rw [List.length_append, List.length_cons] at hlen
  obtain ⟨n, rfl⟩ : ∃ m, n = m + 1 := ⟨n - 1, by omega⟩
  have hread : value n (txt ++ ',' :: (body ++ rest)) = some (v, ',' :: (body ++ rest)) :=
    hv n _ (by omega) (ends_mark (w := []) (by simp [Blank]) (by decide))
  have hrest : members n (body ++ rest) = some (fs, rest) := hbody n rest (by omega)
  rw [fieldHead_append, List.append_assoc, List.cons_append, members,
    fieldName_fieldHead hw hname]
  simp only [Option.bind_some, hread, skipBlank_cons (show isBlank ',' = false from rfl), hrest,
    Option.map_some]

/-- No name starts with a closing brace. -/
theorem fieldName_close (h : skipBlank s = '}' :: t) : fieldName s = none := by
  rw [fieldName, h]
  rfl

theorem not_close_of_members {r : List (Str × Json) × Str} (h : members n s = some r) :
    skipBlank s ≠ '}' :: t := by
  intro hclose
  cases n with
  | zero => simp [members] at h
  | succ n => simp [members, fieldName_close hclose] at h

theorem written_object (h : Fields body fs) : Written ('{' :: body) (.object fs) := by
  intro n rest hn _
  rw [List.length_cons] at hn
  obtain ⟨n, rfl⟩ : ∃ m, n = m + 1 := ⟨n - 1, by omega⟩
  have hread : members n (body ++ rest) = some (fs, rest) := h n rest (by omega)
  rw [List.cons_append, value, skipBlank_cons (by rfl)]
  split
  · rename_i heq
    exact absurd (List.cons.inj heq).1 (by decide)
  · rename_i heq
    obtain rfl := (List.cons.inj heq).2
    split
    · rename_i hclose
      exact absurd hclose (not_close_of_members hread)
    · rw [hread, Option.map_some]
  · rename_i hne
    exact absurd rfl (hne _)

/-! ## items on lines of their own -/

/-- One item a line, with a comma after each but the last. -/
def commaLines (items : List Str) : Str :=
  items.zipIdx.flatMap fun (s, i) => s ++ (if i + 1 = items.length then [] else [',']) ++ ['\n']

theorem commaLines_singleton (s : Str) : commaLines [s] = s ++ ['\n'] := by
  simp [commaLines]

theorem commaLines_cons (s : Str) {items : List Str} (h : items ≠ []) :
    commaLines (s :: items) = s ++ ',' :: '\n' :: commaLines items := by
  rw [commaLines, List.zipIdx_cons', List.flatMap_cons, List.flatMap_map]
  simp [commaLines, h]

variable {α : Type} {l : List α} {text : α → Str} {item : α → Json}

theorem items_commaLines (h : ∀ a ∈ l, Written (text a) (item a)) (hne : l ≠ []) (hw : Blank w) :
    Items (commaLines (l.map text) ++ (w ++ [']'])) (l.map item) := by
  induction l with
  | nil => exact absurd rfl hne
  | cons a l ih =>
      have ha : Written (text a) (item a) := h a (by simp)
      cases l with
      | nil =>
          have hw' : Blank ('\n' :: w) := List.forall_mem_cons.mpr ⟨rfl, hw⟩
          simpa [commaLines_singleton] using items_last ha hw'
      | cons b l =>
          have hrest := ih (fun c hc => h c (by simp [hc])) (by simp)
          have hnl : Blank ['\n'] := by decide
          rw [List.map_cons, commaLines_cons _ (by simp), List.append_assoc, List.cons_append]
          exact items_cons ha (items_blank hnl hrest : Items (['\n'] ++ _) _)

/-- An array whose items stand on lines of their own. -/
theorem written_lines (h : ∀ a ∈ l, Written (text a) (item a)) (hw : Blank w) :
    Written ('[' :: '\n' :: (commaLines (l.map text) ++ (w ++ [']']))) (.array (l.map item)) := by
  have hnl : Blank ['\n'] := by decide
  by_cases hne : l = []
  · subst hne
    exact written_array_nil (w := '\n' :: w) (List.forall_mem_cons.mpr ⟨rfl, hw⟩)
  · exact written_array (items_blank hnl (items_commaLines h hne hw))

end Json

end Pfsnitch.Lib
