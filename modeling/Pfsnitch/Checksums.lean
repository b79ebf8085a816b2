import Pfsnitch.Resets

/-!
# Pfsnitch.Checksums

The checksum of data in pieces.

`csum` keeps a byte between two parts, so that only the data as a whole counts
(`csum_flatten`), and of that it is the complement of the ones-complement sum
(`csum_eq_not_onesSum`).  Additions that must not overflow make no difference to it
(`csumExact_eq`).
-/

namespace Pfsnitch

open Lib

variable {parts : List (List UInt8)}

/-! ## sums without overflow -/

/-- An addition that has to fit into 32 bits. -/
def addExact (a b : UInt32) : Option UInt32 :=
  if a.toNat + b.toNat < UInt32.size then some (a + b) else none

/-- The words of one part, added up without overflow. -/
def csumPartExact (sum : UInt32) : Option UInt8 → List UInt8 → Option (UInt32 × Option UInt8)
  | some hi, lo :: rest => do csumPartExact (← addExact sum (beU16 hi lo).toUInt32) none rest
  | none, hi :: rest => csumPartExact sum (some hi) rest
  | carry, [] => some (sum, carry)

/-- The carries folded without overflow, as long as there are any. -/
def csumFoldExact (sum : UInt32) : Option UInt32 :=
  if _ : sum >>> (16 : UInt32) ≠ 0 then
    if (sum &&& (0xffff : UInt32)).toNat + (sum >>> (16 : UInt32)).toNat < UInt32.size then
      csumFoldExact ((sum &&& (0xffff : UInt32)) + (sum >>> (16 : UInt32)))
    else none
  else some sum
termination_by sum.toNat
decreasing_by
  rename_i hcarry _
  rw [ne_eq, shift_eq_zero_iff] at hcarry
  rw [toNat_foldStep]
  omega

/-- `csum` without overflow. -/
def csumExact (parts : List (List UInt8)) : Option UInt16 := do
  let (sum, carry) ← parts.foldlM (fun (s, c) part => csumPartExact s c part) (0, none)
  let sum ← match carry with
    | some hi => addExact sum (beU16 hi 0).toUInt32
    | none => some sum
  return ~~~ (← csumFoldExact sum).toUInt16

theorem addExact_eq {a b : UInt32} (h : a.toNat + b.toNat < UInt32.size) :
    addExact a b = some (a + b) := if_pos h

theorem csumPartExact_eq {sum : UInt32} {carry : Option UInt8} {part tail : List UInt8}
    (h : sum.toNat + wordSum (carry.toList ++ part ++ tail) < UInt32.size) :
    csumPartExact sum carry part = some (csumPart sum carry part) := by
  induction sum, carry, part using csumPart.induct with
  | case1 sum hi lo rest ih =>
      simp only [Option.toList_none, Option.toList_some, List.nil_append, List.cons_append,
        wordSum_cons_cons] at h ih
      have hfits := Nat.lt_of_le_of_lt (Nat.add_le_add_left (Nat.le_add_right _ _) _) h
      rw [toNat_add_word hfits, Nat.add_assoc] at ih
      rw [← toNat_word] at hfits
      rw [csumPartExact, csumPart, addExact_eq hfits]
      exact ih h
  | case2 sum hi rest ih => exact ih h
  | case3 sum carry =>
      rw [csumPartExact, csumPart]

theorem csumPartsExact_eq {x : UInt32 × Option UInt8}
    (h : x.1.toNat + wordSum (x.2.toList ++ parts.flatten) < UInt32.size) :
    parts.foldlM (fun (s, c) part => csumPartExact s c part) x =
      some (parts.foldl (fun (s, c) part => csumPart s c part) x) := by
  induction parts generalizing x with
  | nil => rfl
  | cons part parts ih =>
      obtain ⟨sum, carry⟩ := x
      rw [List.flatten_cons, ← List.append_assoc] at h
      rw [List.foldlM_cons, List.foldl_cons]
      dsimp only
      rw [csumPartExact_eq h]
      exact ih (csumPart_spec h ▸ h)

/-- The loop stops where the turns given to `csumFold` have left no carry. -/
theorem csumFoldExact_eq {n : Nat} {sum : UInt32} (h : (csumFold n sum).toNat < 65536) :
    csumFoldExact sum = some (csumFold n sum) := by
  induction n generalizing sum with
  | zero =>
      have hcarry : ¬ sum >>> (16 : UInt32) ≠ 0 := not_not.mpr ((shift_eq_zero_iff sum).mpr h)
      rw [csumFoldExact, dif_neg hcarry]
      rfl
  | succ n ih =>
      rw [csumFold_succ] at h ⊢
      rw [csumFoldExact]
      by_cases hlt : sum.toNat < 65536
      · have hcarry : ¬ sum >>> (16 : UInt32) ≠ 0 := not_not.mpr ((shift_eq_zero_iff sum).mpr hlt)
        rw [dif_neg hcarry, if_pos hlt]
      · have hcarry : sum >>> (16 : UInt32) ≠ 0 := mt (shift_eq_zero_iff sum).mp hlt
        have hfit :
            (sum &&& (0xffff : UInt32)).toNat + (sum >>> (16 : UInt32)).toNat < UInt32.size := by
          have hs := sum.toNat_lt
          rw [toNat_low, toNat_high]
          change _ < 4294967296
          omega
        rw [if_neg hlt] at h ⊢
        rw [dif_pos hcarry, if_pos hfit, ih h]

/-- No addition overflows as long as all words fit into 32 bits together. -/
theorem csumExact_eq (hlen : parts.flatten.length ≤ 131074) :
    csumExact parts = some (csum parts) := by
  have hlt := wordSum_lt hlen
  have hstart := wordSum_start parts.flatten
  have hsum := (csumParts_spec (x := (0, none)) (hstart.trans_lt hlt)).trans hstart
  rw [csumExact, csum, csumPartsExact_eq (x := (0, none)) (hstart.trans_lt hlt)]
  generalize parts.foldl (fun (s, c) part => csumPart s c part) (0, none) = x at hsum
  obtain ⟨sum, carry⟩ := x
  cases carry with
  | none =>
      simp only [bind, Option.bind, pure]
      rw [csumFoldExact_eq (csumFold_spec sum).1]
  | some hi =>
      rw [Option.toList_some, wordSum_singleton] at hsum
      have hadd : sum.toNat + (beU16 hi 0).toUInt32.toNat < UInt32.size := by
        rw [toNat_word, UInt8.toNat_zero, Nat.add_zero, hsum]
        exact hlt
      simp only [bind, Option.bind, pure]
      rw [addExact_eq hadd]
      dsimp only
      rw [csumFoldExact_eq (csumFold_spec _).1]

/-! ## pieces -/

/-- The byte left over from one part is taken up by the next. -/
theorem csumPart_append (sum : UInt32) (carry : Option UInt8) (part rest : List UInt8) :
    csumPart sum carry (part ++ rest) =
      csumPart (csumPart sum carry part).1 (csumPart sum carry part).2 rest := by
  induction sum, carry, part using csumPart.induct with
  | case1 sum hi lo part ih => rw [List.cons_append, csumPart, csumPart, ih]
  | case2 sum hi part ih => rw [List.cons_append, csumPart, csumPart, ih]
  | case3 sum carry => rw [List.nil_append, csumPart.eq_3]

/-- How the data is cut into parts makes no difference. -/
theorem csum_flatten (parts : List (List UInt8)) : csum parts = csum [parts.flatten] := by
  have hfold : ∀ x : UInt32 × Option UInt8,
      parts.foldl (fun (s, c) part => csumPart s c part) x = csumPart x.1 x.2 parts.flatten := by
    induction parts with
    | nil =>
        intro x
        rw [List.flatten_nil, csumPart.eq_3]
        rfl
    | cons part parts ih =>
        intro x
        rw [List.foldl_cons, ih, List.flatten_cons, csumPart_append]
  rw [csum, csum, hfold]
  rfl

/-! ## the checksum of the data -/

/-- The folded sum and the ones-complement sum are one word. -/
theorem csum_eq_not_onesSum (hlen : parts.flatten.length ≤ 131074) :
    csum parts = ~~~ (UInt16.ofNat (onesSum parts.flatten)) := by
  obtain ⟨f, hf, hmod, hzero, hcsum⟩ := csum_spec hlen
  obtain ⟨hlt, hones, hones0⟩ := onesSum_spec parts.flatten
  have heq : f = onesSum parts.flatten := by omega
  rw [← UInt16.toNat_inj, hcsum, UInt16.toNat_not, UInt16.toNat_ofNat', heq,
    Nat.mod_eq_of_lt hlt]
  rfl

/-- Data that verifies has the checksum 0. -/
theorem csum_of_verifies (hlen : parts.flatten.length ≤ 131074)
    (h : Verifies parts.flatten) : csum parts = 0 := by
  rw [csum_eq_not_onesSum hlen, h]
  decide

/-- **`csum` is the Internet checksum of the concatenation.** -/
theorem csum_internet (hlen : parts.flatten.length ≤ 65575) :
    csum parts = csum [parts.flatten] ∧
    csum parts = ~~~ (UInt16.ofNat (onesSum parts.flatten)) ∧
    csumExact parts = some (csum parts) ∧
    ∀ pre post, parts.flatten = pre ++ (be16 0 ++ post) → pre.length % 2 = 0 →
      ∀ whole, whole.flatten = pre ++ (be16 (csum parts).toNat ++ post) → csum whole = 0 := by
  refine ⟨csum_flatten parts, csum_eq_not_onesSum (by omega), csumExact_eq (by omega), ?_⟩
  intro pre post hparts heven whole hwhole
  have hverifies := verifies_csum hparts heven (by omega)
  have hsame : whole.flatten.length = parts.flatten.length := by
    rw [hwhole, hparts]
    simp [be16]
  rw [← hwhole] at hverifies
  exact csum_of_verifies (by omega) hverifies

/-- Pieces of odd length, and one that is empty, with a field of zeros across two of them. -/
def oddPieces : List (List UInt8) := [[0x12], [], [0x34, 0], [0, 0x78]]

theorem csum_internet_oddPieces : csum oddPieces = csum [[0x12, 0x34, 0, 0, 0x78]] ∧
    csum oddPieces = 0x75cb ∧ csumExact oddPieces = some 0x75cb ∧
      csum [[0x12, 0x34, 0x75], [0xcb], [], [0x78]] = 0 := by
  obtain ⟨hflat, hsum, hexact, hwhole⟩ :=
    csum_internet (show oddPieces.flatten.length ≤ 65575 by decide)
  have hck : csum oddPieces = 0x75cb := hsum.trans (by decide)
  rw [hck] at hexact hwhole
  exact ⟨hflat, hck, hexact,
    hwhole [0x12, 0x34] [0x78] (by decide) (by decide) _ (by decide)⟩

end Pfsnitch
