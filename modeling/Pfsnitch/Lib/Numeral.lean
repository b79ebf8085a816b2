import Pfsnitch.Lib.Text
import Mathlib.Tactic.IntervalCases

/-!
# Pfsnitch.Lib.Numeral

Numerals in a radix up to sixteen: the digits `Nat.toDigits` writes, read back
by the digit-run reader of the Rust address parser (`read_number`) and by
`from_str` of the unsigned types.

`readNumber_toDigits` is the round trip every textual format built on
numerals uses: a number followed by anything that is not a digit is read back
with exactly that remainder.
-/

namespace Pfsnitch.Lib

/-! ## digits -/

/-- The value of a hexadecimal digit, in either case. -/
def hexValue (c : Char) : Option Nat :=
  let n := c.toNat
  if 48 ≤ n ∧ n ≤ 57 then some (n - 48)
  else if 97 ≤ n ∧ n ≤ 102 then some (n - 87)
  else if 65 ≤ n ∧ n ≤ 70 then some (n - 55)
  else none

/-- `char::to_digit`: the value of `c` as a digit of the radix. -/
def toDigit (radix : Nat) (c : Char) : Option Nat := (hexValue c).filter (· < radix)

/-- Is `c` a digit of the radix? -/
def isDigitOf (radix : Nat) (c : Char) : Bool := (toDigit radix c).isSome

/-- The value of a run of digits. -/
def digitsValue (radix : Nat) (s : Str) : Nat :=
  s.foldl (fun acc c => acc * radix + (toDigit radix c).getD 0) 0

theorem hexValue_digitChar {d : Nat} (hd : d < 16) : hexValue (Nat.digitChar d) = some d := by
  interval_cases d <;> decide

/-- A digit character stands for its digit. -/
theorem toDigit_digitChar {radix d : Nat} (hd : d < radix) (hr : radix ≤ 16) :
    toDigit radix (Nat.digitChar d) = some d := by
  rw [toDigit, hexValue_digitChar (by omega)]
  simp [hd]

theorem isDigitOf_digitChar {radix d : Nat} (hd : d < radix) (hr : radix ≤ 16) :
    isDigitOf radix (Nat.digitChar d) = true := by
  simp [isDigitOf, toDigit_digitChar hd hr]

/-- Every character of a numeral is a digit. -/
theorem isDigitOf_of_mem_toDigits {radix n : Nat} (h2 : 1 < radix) (hr : radix ≤ 16) {c : Char}
    (hc : c ∈ Nat.toDigits radix n) : isDigitOf radix c = true := by
  induction n using Nat.strongRecOn with
  | _ n ih =>
    by_cases hlt : n < radix
    · rw [Nat.toDigits_of_lt_base hlt, List.mem_singleton] at hc
      rw [hc]
      exact isDigitOf_digitChar hlt hr
    · rw [Nat.toDigits_of_base_le h2 (by omega), List.mem_append, List.mem_singleton] at hc
      rcases hc with hc | rfl
      · exact ih (n / radix) (Nat.div_lt_self (by omega) h2) hc
      · exact isDigitOf_digitChar (Nat.mod_lt _ (by omega)) hr

/-- The digits of a number have its value. -/
theorem digitsValue_toDigits {radix : Nat} (h2 : 1 < radix) (hr : radix ≤ 16) (n : Nat) :
    digitsValue radix (Nat.toDigits radix n) = n := by
  induction n using Nat.strongRecOn with
  | _ n ih =>
    by_cases hlt : n < radix
    · rw [Nat.toDigits_of_lt_base hlt]
      simp [digitsValue, toDigit_digitChar hlt hr]
    · rw [Nat.toDigits_of_base_le h2 (by omega)]
      have hq := ih (n / radix) (Nat.div_lt_self (by omega) h2)
      unfold digitsValue at hq ⊢
      rw [List.foldl_append, hq]
      simp only [List.foldl_cons, List.foldl_nil,
        toDigit_digitChar (Nat.mod_lt n (by omega : 0 < radix)) hr, Option.getD_some]
      rw [Nat.mul_comm]
      exact Nat.div_add_mod n radix

/-- A positive number is written without a leading zero. -/
theorem head_toDigits_ne_zero {radix n : Nat} (h2 : 1 < radix) (hr : radix ≤ 16) (hn : 0 < n) :
    (Nat.toDigits radix n).head? ≠ some '0' := by
  induction n using Nat.strongRecOn with
  | _ n ih =>
    by_cases hlt : n < radix
    · have hn16 : n < 16 := by omega
      rw [Nat.toDigits_of_lt_base hlt]
      interval_cases n <;> decide
    · rw [Nat.toDigits_of_base_le h2 (by omega),
        List.head?_append_of_ne_nil _ Nat.toDigits_ne_nil]
      exact ih (n / radix) (Nat.div_lt_self (by omega) h2)
        (Nat.div_pos (by omega) (by omega))

/-! ## reading a run of digits -/

/-- `read_number(radix, Some(max), allow_zero_prefix)` for a type whose values
are at most `bound`: the longest run of digits, rejected when it is empty,
longer than `max`, has a forbidden leading zero, or exceeds the bound.  Returns
the value and the unread text. -/
def readNumber (radix max : Nat) (allowZeroPrefix : Bool) (bound : Nat) (s : Str) :
    Option (Nat × Str) :=
  let ds := s.takeWhile (isDigitOf radix)
  let rest := s.dropWhile (isDigitOf radix)
  if ds.length > max then none
  else if ds.length = 0 then none
  else if !allowZeroPrefix && ds.head? == some '0' && decide (ds.length > 1) then none
  else if digitsValue radix ds ≤ bound then some (digitsValue radix ds, rest)
  else none

/-- A number written in the radix is read back, with the text after it, when
that text does not go on with a digit. -/
theorem readNumber_toDigits {radix max bound n : Nat} {allowZeroPrefix : Bool} {rest : Str}
    (h2 : 1 < radix) (hr : radix ≤ 16) (hmax : 0 < max) (hlen : n < radix ^ max)
    (hbound : n ≤ bound) (hrest : ∀ c, rest.head? = some c → isDigitOf radix c = false) :
    readNumber radix max allowZeroPrefix bound (Nat.toDigits radix n ++ rest) =
      some (n, rest) := by
  have hall : ∀ c ∈ Nat.toDigits radix n, isDigitOf radix c = true :=
    fun c hc => isDigitOf_of_mem_toDigits h2 hr hc
  have hstop : rest.takeWhile (isDigitOf radix) = [] ∧ rest.dropWhile (isDigitOf radix) = rest := by
    cases rest with
    | nil => simp
    | cons c r => simp [hrest c rfl]
  have htake : (Nat.toDigits radix n ++ rest).takeWhile (isDigitOf radix) =
      Nat.toDigits radix n := by
    rw [List.takeWhile_append_of_pos hall, hstop.1, List.append_nil]
  have hdrop : (Nat.toDigits radix n ++ rest).dropWhile (isDigitOf radix) = rest := by
    rw [List.dropWhile_append_of_pos hall, hstop.2]
  have hle : (Nat.toDigits radix n).length ≤ max := (Nat.length_toDigits_le_iff h2 hmax).mpr hlen
  have hpos : 0 < (Nat.toDigits radix n).length := Nat.length_toDigits_pos
  have hzero : ¬ ((!allowZeroPrefix && (Nat.toDigits radix n).head? == some '0' &&
      decide ((Nat.toDigits radix n).length > 1)) = true) := by
    rcases Nat.eq_zero_or_pos n with rfl | hn
    · simp
    · have := head_toDigits_ne_zero h2 hr hn
      simp [this]
  simp only [readNumber, htake, hdrop, digitsValue_toDigits h2 hr]
  rw [if_neg (by omega), if_neg (by omega), if_neg hzero, if_pos hbound]

/-- Text that does not start with a digit is not a number. -/
theorem readNumber_of_head {radix max bound : Nat} {allowZeroPrefix : Bool} {s : Str}
    (h : ∀ c, s.head? = some c → isDigitOf radix c = false) :
    readNumber radix max allowZeroPrefix bound s = none := by
  have htake : s.takeWhile (isDigitOf radix) = [] := by
    cases s with
    | nil => rfl
    | cons c r => simp [h c rfl]
  simp [readNumber, htake]

/-- What is read is a prefix of digits. -/
theorem readNumber_eq_some {radix max bound n : Nat} {allowZeroPrefix : Bool} {s rest : Str}
    (h : readNumber radix max allowZeroPrefix bound s = some (n, rest)) :
    ∃ ds, s = ds ++ rest ∧ ds ≠ [] ∧ ∀ c ∈ ds, isDigitOf radix c = true := by
  refine ⟨s.takeWhile (isDigitOf radix), ?_, ?_, ?_⟩
  · have hrest : s.dropWhile (isDigitOf radix) = rest := by
      simp only [readNumber] at h
      split_ifs at h
      simpa using congrArg Prod.snd (Option.some.inj h)
    rw [← hrest, List.takeWhile_append_dropWhile]
  · intro hnil
    simp [readNumber, hnil] at h
  · exact fun c hc => List.mem_takeWhile_imp hc

/-! ## whole texts -/

/-- An unsigned numeral may carry a leading `+`. -/
def stripPlus : Str → Str
  | '+' :: r => r
  | s => s

theorem stripPlus_of_head {s : Str} (h : s.head? ≠ some '+') : stripPlus s = s := by
  unfold stripPlus
  split
  · simp at h
  · rfl

/-- `from_str` of an unsigned type of `size` values: an optional `+`, then one or more decimal
digits whose value fits. -/
def parseDecimal (size : Nat) (s : Str) : Option Nat :=
  let ds := stripPlus s
  if ds ≠ [] ∧ ds.all (isDigitOf 10) = true ∧ digitsValue 10 ds < size then
    some (digitsValue 10 ds)
  else none

/-- A number's decimal text is read back. -/
theorem parseDecimal_toDigits {size n : Nat} (h : n < size) :
    parseDecimal size (Nat.toDigits 10 n) = some n := by
  have hdigit {c : Char} (hc : c ∈ Nat.toDigits 10 n) : isDigitOf 10 c = true :=
    isDigitOf_of_mem_toDigits (by decide) (by decide) hc
  have hds : stripPlus (Nat.toDigits 10 n) = Nat.toDigits 10 n := by
    apply stripPlus_of_head
    intro hplus
    exact absurd (hdigit (List.mem_of_head? hplus)) (by decide)
  have hval : digitsValue 10 (Nat.toDigits 10 n) = n := digitsValue_toDigits (by decide) (by decide) _
  have hall : (Nat.toDigits 10 n).all (isDigitOf 10) = true :=
    List.all_eq_true.mpr fun c hc => hdigit hc
  simp only [parseDecimal, hds, hval]
  rw [if_pos ⟨Nat.toDigits_ne_nil, hall, h⟩]

/-- `u64::from_str`. -/
def parseU64 (s : Str) : Option UInt64 := (parseDecimal (2 ^ 64) s).map UInt64.ofNat

/-- `u64::to_string`. -/
def showU64 (n : UInt64) : Str := Nat.toDigits 10 n.toNat

theorem parseU64_showU64 (n : UInt64) : parseU64 (showU64 n) = some n := by
  rw [parseU64, showU64, parseDecimal_toDigits n.toNat_lt, Option.map_some, UInt64.ofNat_toNat]

/-! ## ports -/

/-- `u16::from_str`: an optional `+`, then one or more decimal digits whose
value fits. -/
def parseU16 (s : Str) : Option UInt16 :=
  let ds := stripPlus s
  if ds ≠ [] ∧ ds.all (isDigitOf 10) = true ∧ digitsValue 10 ds < 65536 then
    some (UInt16.ofNat (digitsValue 10 ds))
  else none

theorem mem_of_parseU16 {s : Str} {p : UInt16} {c : Char} (h : parseU16 s = some p) (hc : c ∈ s) :
    c = '+' ∨ isDigitOf 10 c = true := by
  simp only [parseU16] at h
  split_ifs at h with hs
  have hdigits : ∀ d ∈ stripPlus s, isDigitOf 10 d = true := List.all_eq_true.mp hs.2.1
  by_cases hplus : s.head? = some '+'
  · obtain ⟨t, rfl⟩ : ∃ t, s = '+' :: t := by simpa [List.head?_eq_some_iff] using hplus
    obtain rfl | hc := List.mem_cons.mp hc
    · exact .inl rfl
    · exact .inr (hdigits c hc)
  · rw [stripPlus_of_head hplus] at hdigits
    exact .inr (hdigits c hc)

/-- The decimal text of a port (`u16::to_string`). -/
def showU16 (p : UInt16) : Str := Nat.toDigits 10 p.toNat

theorem isDigitOf_of_mem_showU16 {p : UInt16} {c : Char} (h : c ∈ showU16 p) :
    isDigitOf 10 c = true :=
  isDigitOf_of_mem_toDigits (by decide) (by decide) h

theorem parseU16_eq (s : Str) : parseU16 s = (parseDecimal 65536 s).map UInt16.ofNat := by
  unfold parseU16 parseDecimal
  simp only
  split
  · rfl
  · rfl

/-- A port's text is read back as the port. -/
theorem parseU16_showU16 (p : UInt16) : parseU16 (showU16 p) = some p := by
  rw [parseU16_eq, showU16, parseDecimal_toDigits p.toNat_lt, Option.map_some, UInt16.ofNat_toNat]

end Pfsnitch.Lib
