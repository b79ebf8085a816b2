import Mathlib.Algebra.GroupWithZero.Nat

/-!
# Pfsnitch.Lib.OnesSum

The Internet checksum as a receiver verifies it: the ones-complement sum of all 16-bit
words, the checksum among them, is all ones.

Ones-complement addition is addition modulo 65535 with two zeros, so the verification comes
down to a remainder (`verifies_iff`).
-/

namespace Pfsnitch.Lib

/-- The big-endian 16-bit words of a byte sequence, the last one padded with a zero. -/
def words : List UInt8 → List Nat
  | hi :: lo :: rest => (hi.toNat * 256 + lo.toNat) :: words rest
  | [hi] => [hi.toNat * 256]
  | [] => []

/-- Ones-complement addition of words: the carry is added at the low end. -/
def onesAdd (a b : Nat) : Nat := if a + b < 65536 then a + b else a + b - 65535

/-- The ones-complement sum of a byte sequence. -/
def onesSum (bytes : List UInt8) : Nat := (words bytes).foldl onesAdd 0

/-- A receiver accepts the bytes, the checksum among them. -/
def Verifies (bytes : List UInt8) : Prop := onesSum bytes = 0xffff

instance (bytes : List UInt8) : Decidable (Verifies bytes) := inferInstanceAs (Decidable (_ = _))

/-- The plain sum of the words. -/
def wordSum (bytes : List UInt8) : Nat := (words bytes).sum

@[simp] theorem wordSum_nil : wordSum [] = 0 := rfl

@[simp] theorem wordSum_singleton (hi : UInt8) : wordSum [hi] = hi.toNat * 256 := by
  simp [wordSum, words]

@[simp] theorem wordSum_cons_cons (hi lo : UInt8) (rest : List UInt8) :
    wordSum (hi :: lo :: rest) = hi.toNat * 256 + lo.toNat + wordSum rest := by
  rw [wordSum, words, List.sum_cons, wordSum]

theorem mem_words {bytes : List UInt8} {w : Nat} (h : w ∈ words bytes) : w < 65536 := by
  induction bytes using words.induct with
  | case1 hi lo rest ih =>
      have hhi := hi.toNat_lt
      have hlo := lo.toNat_lt
      obtain rfl | h := List.mem_cons.mp h
      · omega
      · exact ih h
  | case2 hi =>
      have hhi := hi.toNat_lt
      obtain rfl := List.mem_singleton.mp h
      omega
  | case3 => cases h

/-- Words do not run across an even boundary. -/
theorem wordSum_append {a : List UInt8} (ha : a.length % 2 = 0) (b : List UInt8) :
    wordSum (a ++ b) = wordSum a + wordSum b := by
  induction a using words.induct with
  | case1 hi lo rest ih =>
      have hrest : rest.length % 2 = 0 := by
        simp only [List.length_cons] at ha
        omega
      rw [List.cons_append, List.cons_append, wordSum_cons_cons, wordSum_cons_cons, ih hrest]
      omega
  | case2 hi => simp at ha
  | case3 => simp

/-- A word for every two bytes, and none above 65535. -/
theorem wordSum_le (bytes : List UInt8) : wordSum bytes ≤ 65535 * ((bytes.length + 1) / 2) := by
  induction bytes using words.induct with
  | case1 hi lo rest ih =>
      have hhi := hi.toNat_lt
      have hlo := lo.toNat_lt
      simp only [wordSum_cons_cons, List.length_cons]
      omega
  | case2 hi =>
      have hhi := hi.toNat_lt
      simp only [wordSum_singleton, List.length_singleton]
      omega
  | case3 => simp

/-- Adding words one by one keeps the remainder, stays a word and never falls back to
zero. -/
theorem foldl_onesAdd {ws : List Nat} (hws : ∀ w ∈ ws, w < 65536) {s : Nat} (hs : s < 65536) :
    ws.foldl onesAdd s < 65536 ∧ ws.foldl onesAdd s % 65535 = (s + ws.sum) % 65535 ∧
      (ws.foldl onesAdd s = 0 ↔ s + ws.sum = 0) := by
  induction ws generalizing s with
  | nil => simp [hs]
  | cons w ws ih =>
      have hw := hws w List.mem_cons_self
      have hadd : onesAdd s w < 65536 ∧ onesAdd s w % 65535 = (s + w) % 65535 ∧
          (onesAdd s w = 0 ↔ s + w = 0) := by
        unfold onesAdd
        split <;> omega
      obtain ⟨hlt, hmod, hzero⟩ :=
        ih (fun w hw => hws w (List.mem_cons_of_mem _ hw)) (s := onesAdd s w) hadd.1
      rw [List.foldl_cons, List.sum_cons]
      refine ⟨hlt, by omega, by omega⟩

/-- The ones-complement sum, but for the two zeros, is the sum modulo 65535. -/
theorem onesSum_spec (bytes : List UInt8) : onesSum bytes < 65536 ∧
    onesSum bytes % 65535 = wordSum bytes % 65535 ∧ (onesSum bytes = 0 ↔ wordSum bytes = 0) := by
  have hws : ∀ w ∈ words bytes, w < 65536 := fun w hw => mem_words hw
  have h := foldl_onesAdd hws (show 0 < 65536 by omega)
  rw [Nat.zero_add] at h
  exact h

/-- What a receiver accepts: a sum that is a multiple of 65535, and not zero. -/
theorem verifies_iff (bytes : List UInt8) :
    Verifies bytes ↔ 0 < wordSum bytes ∧ wordSum bytes % 65535 = 0 := by
  obtain ⟨hlt, hmod, hzero⟩ := onesSum_spec bytes
  rw [Verifies]
  omega

end Pfsnitch.Lib
