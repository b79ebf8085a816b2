import Pfsnitch.Dns
import Pfsnitch.Divert.Checked
import Mathlib.Data.Nat.Bitwise

/-!
# Pfsnitch.Dns.Checked

The DNS reader once more, with every access to the message as the source writes it: an
index or a slice beyond the message is a panic, which aborts the daemon.

The loop of `read_name` moves forwards on a label and anywhere on a pointer, so what falls
on every turn is a pair: the pointers that may still be followed, and the bytes up to the
end.  It ends on every message, and nothing in it panics (`readNameChecked_eq`,
`parseResponseChecked_eq`).
-/

namespace Pfsnitch

open Lib

variable {b : List UInt8}

/-! ## names -/

/-- The loop of `read_name`. -/
def readNameLoopChecked (b : List UInt8) (out : Str) (off : Nat) (after : Option Nat)
    (hops : Nat) : Checked (Option (Str × Nat)) :=
  if hoff : off ≥ b.length then .ok none
  else do
    let len := (← index b off).toNat
    if len &&& 0xc0 = 0xc0 then
      -- compression pointer
      if off + 1 ≥ b.length then return none
      else
        let ptr := ((len &&& 0x3f) <<< 8) ||| (← index b (off + 1)).toNat
        let after := if after.isNone then some (off + 2) else after
        if hptr : hops + 1 > 16 ∨ ptr ≥ b.length then return none -- malformed or a pointer loop
        else readNameLoopChecked b out ptr after (hops + 1)
    else if len = 0 then return some (out, after.getD (off + 1))
    else if off + 1 + len > b.length then return none
    else
      let out := if out.isEmpty then out else out ++ ['.']
      let label ← slice b (off + 1) (off + 1 + len)
      readNameLoopChecked b (out ++ utf8Lossy label) (off + 1 + len) after hops
termination_by (17 - hops, b.length - off)

/-- `read_name`. -/
def readNameChecked (b : List UInt8) (start : Nat) : Checked (Option (Str × Nat)) :=
  readNameLoopChecked b [] start none 0

/-- The two highest bits of a length byte. -/
theorem and_tag (len : UInt8) : len.toNat &&& 0xc0 = 0xc0 ↔ len.toNat / 64 = 3 := by
  have h : ∀ n : Fin 256, n.val &&& 0xc0 = 0xc0 ↔ n.val / 64 = 3 := by decide +kernel
  exact h ⟨len.toNat, len.toNat_lt⟩

/-- The fourteen bits of a pointer. -/
theorem or_pointer (hi lo : UInt8) :
    ((hi.toNat &&& 0x3f) <<< 8) ||| lo.toNat = hi.toNat % 64 * 256 + lo.toNat := by
  have hmask : hi.toNat &&& 0x3f = hi.toNat % 64 := Nat.and_two_pow_sub_one_eq_mod hi.toNat 6
  rw [hmask, ← Nat.shiftLeft_add_eq_or_of_lt lo.toNat_lt, Nat.shiftLeft_eq]

/-- Turns that cover the pointers left and the bytes left are enough. -/
theorem readNameLoopChecked_eq {fuel : Nat} {out : Str} {off hops : Nat} {after : Option Nat}
    (hhops : hops ≤ 16) (hfuel : (16 - hops) * (b.length + 1) + (b.length - off) < fuel) :
    readNameLoopChecked b out off after hops = .ok (readNameLoop b fuel out off after hops) := by
  induction fuel generalizing out off after hops with
  | zero => omega
  | succ fuel ih =>
      rw [readNameLoopChecked, readNameLoop]
      by_cases hoff : off ≥ b.length
      · rw [dif_pos hoff, List.getElem?_eq_none hoff]
      · rw [dif_neg hoff, index_eq (by omega), getElem?_byteAt (by omega)]
        simp only [bind, Except.bind, pure, Except.pure, and_tag]
        by_cases htag : (byteAt b off).toNat / 64 = 3
        · rw [if_pos htag, if_pos htag]
          by_cases hlo : off + 1 ≥ b.length
          · rw [if_pos hlo, List.getElem?_eq_none hlo]
          · rw [if_neg hlo, index_eq (by omega), getElem?_byteAt (by omega)]
            simp only [or_pointer]
            split
            · rfl
            · -- a pointer pays for all the bytes that can then be read
              rename_i hptr
              have hafter : (if after.isNone = true then some (off + 2) else after) =
                  after.or (some (off + 2)) := by cases after <;> rfl
              obtain ⟨k, hk⟩ : ∃ k, 16 - hops = k + 1 := ⟨15 - hops, by omega⟩
              have hk' : 16 - (hops + 1) = k := by omega
              rw [hk, Nat.succ_mul] at hfuel
              rw [hafter]
              exact ih (by omega) (by rw [hk']; omega)
        · rw [if_neg htag, if_neg htag]
          have hzero : (byteAt b off).toNat = 0 ↔ byteAt b off = 0 := by
            rw [← UInt8.toNat_inj, UInt8.toNat_zero]
          simp only [hzero]
          split
          · rfl
          · split
            · rfl
            · rename_i hfits
              rw [slice_eq (by omega) (by omega), Nat.add_sub_cancel_left]
              exact ih hhops (by omega)

/-- Reading a name ends and does not panic. -/
theorem readNameChecked_eq (b : List UInt8) (start : Nat) :
    readNameChecked b start = .ok (readName b start) :=
  readNameLoopChecked_eq (Nat.zero_le 16) (by omega)

/-! ## responses -/

/-- `u16::from_be_bytes` at an offset, as a number. -/
def beAtChecked (b : List UInt8) (off : Nat) : Checked Nat := do
  return (beU16 (← index b off) (← index b (off + 1))).toNat

/-- Skip further questions. -/
def skipQuestionsChecked (b : List UInt8) : Nat → Nat → Checked (Option Nat)
  | 0, off => return some off
  | n + 1, off => do
    match ← readNameChecked b off with
    | some (_, next) => skipQuestionsChecked b n (next + 4)
    | none => return none

/-- The address an answer record holds. -/
def recordAddrChecked (b : List UInt8) (rtype rdlen off : Nat) : Checked (Option IpAddr) := do
  if rtype = 1 ∧ rdlen = 4 then
    return some (.v4 ⟨← index b off, ← index b (off + 1), ← index b (off + 2),
      ← index b (off + 3)⟩)
  else if rtype = 28 ∧ rdlen = 16 then return some (.v6 (← copyAddr (← slice b off (off + 16))))
  else return none

/-- The loop over the answer records, with the addresses so far. -/
def readAnswersChecked (b : List UInt8) :
    Nat → Nat → List IpAddr → Checked (Option (List IpAddr))
  | 0, _, ips => return some ips
  | n + 1, off, ips => do
    match ← readNameChecked b off with
    | none => return none
    | some (_, off) =>
      if off + 10 > b.length then return some ips
      else
        let rtype ← beAtChecked b off
        let rdlen ← beAtChecked b (off + 8)
        let off := off + 10
        if off + rdlen > b.length then return some ips
        else
          let ip ← recordAddrChecked b rtype rdlen off
          readAnswersChecked b n (off + rdlen) (ips ++ ip.toList)

/-- `parse_response`. -/
def parseResponseChecked (b : List UInt8) : Checked (Option (Str × List IpAddr)) := do
  if b.length < 12 then return none
  else
    let flags ← beAtChecked b 2
    if flags &&& 0x8000 = 0 then return none -- a query, not a response
    else
      let qd ← beAtChecked b 4
      let an ← beAtChecked b 6
      if qd = 0 ∨ an = 0 then return none
      else
        match ← readNameChecked b 12 with
        | none => return none
        | some (qname, next) =>
          match ← skipQuestionsChecked b (qd - 1) (next + 4) with
          | none => return none
          | some off =>
            match ← readAnswersChecked b an off [] with
            | none => return none
            | some ips => return if ips.isEmpty then none else some (qname, ips)

variable {off : Nat}

theorem beAtChecked_eq (h : off + 1 < b.length) : beAtChecked b off = .ok (beAt b off) := by
  rw [beAtChecked, index_eq (by omega), index_eq h]
  rfl

theorem skipQuestionsChecked_eq (n off : Nat) :
    skipQuestionsChecked b n off = .ok (skipQuestions b n off) := by
  induction n generalizing off with
  | zero => rfl
  | succ n ih =>
      rw [skipQuestionsChecked, skipQuestions, readNameChecked_eq]
      simp only [bind, Except.bind]
      cases readName b off with
      | none => rfl
      | some r => exact ih _

/-- A record that lies in the message holds the bytes of its address. -/
theorem recordAddrChecked_eq {rtype rdlen : Nat} (h : off + rdlen ≤ b.length) :
    recordAddrChecked b rtype rdlen off = .ok (recordAddr b rtype rdlen off) := by
  rw [recordAddrChecked, recordAddr]
  by_cases ha : rtype = 1 ∧ rdlen = 4
  · rw [if_pos ha, if_pos ha, index_eq (by omega), index_eq (by omega), index_eq (by omega),
      index_eq (by omega)]
    rfl
  · rw [if_neg ha, if_neg ha]
    by_cases haaaa : rtype = 28 ∧ rdlen = 16
    · have hsize : ((b.drop off).take 16).length = 16 := by
        rw [List.length_take, List.length_drop]
        omega
      rw [if_pos haaaa, if_pos haaaa, slice_eq (by omega) (by omega), Nat.add_sub_cancel_left,
        ipv6At, dif_pos hsize]
      simp only [bind, Except.bind, copyAddr, dif_pos hsize]
      rfl
    · rw [if_neg haaaa, if_neg haaaa]
      rfl

theorem readAnswersChecked_eq (n off : Nat) (ips : List IpAddr) :
    readAnswersChecked b n off ips = .ok ((readAnswers b n off).map (ips ++ ·)) := by
  induction n generalizing off ips with
  | zero => simp [readAnswersChecked, readAnswers, pure, Except.pure]
  | succ n ih =>
      rw [readAnswersChecked, readAnswers, readNameChecked_eq]
      simp only [bind, Except.bind, pure, Except.pure]
      cases readName b off with
      | none => rfl
      | some r =>
          obtain ⟨name, off⟩ := r
          dsimp only
          by_cases hfixed : off + 10 > b.length
          · rw [if_pos hfixed, if_pos hfixed, Option.map_some, List.append_nil]
          · rw [if_neg hfixed, if_neg hfixed, beAtChecked_eq (by omega), beAtChecked_eq (by omega)]
            dsimp only
            split
            · rw [Option.map_some, List.append_nil]
            · rename_i hfits
              rw [recordAddrChecked_eq (by omega), Option.map_map]
              dsimp only
              rw [ih]
              simp only [Function.comp_def, List.append_assoc]

/-- The bit that tells a response from a query. -/
theorem and_response (off : Nat) : beAt b off &&& 0x8000 = 0 ↔ beAt b off < 0x8000 := by
  have hlt : beAt b off < 65536 := UInt16.toNat_lt _
  have hand : beAt b off &&& 0x8000 = beAt b off / 32768 % 2 * 32768 := by
    rw [show 0x8000 = 2 ^ 15 from rfl, Nat.and_two_pow, Nat.toNat_testBit]
  rw [hand]
  omega

/-- Reading a response ends and does not panic. -/
theorem parseResponseChecked_eq (b : List UInt8) :
    parseResponseChecked b = .ok (parseResponse b) := by
  rw [parseResponseChecked, parseResponse]
  by_cases hlen : b.length < 12
  · rw [if_pos hlen, if_pos hlen]
    rfl
  · rw [if_neg hlen, if_neg hlen, beAtChecked_eq (by omega), beAtChecked_eq (by omega),
      beAtChecked_eq (by omega)]
    simp only [bind, Except.bind, pure, Except.pure, and_response]
    split
    · rfl
    · split
      · rfl
      · rw [readNameChecked_eq]
        cases readName b 12 with
        | none => rfl
        | some r =>
            obtain ⟨qname, next⟩ := r
            dsimp only
            rw [skipQuestionsChecked_eq]
            cases skipQuestions b (beAt b 4 - 1) (next + 4) with
            | none => rfl
            | some off =>
                dsimp only
                rw [readAnswersChecked_eq]
                cases readAnswers b (beAt b 6) off with
                | none => rfl
                | some ips => cases ips <;> rfl

end Pfsnitch
