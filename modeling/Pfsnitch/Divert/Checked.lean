import Pfsnitch.Divert.Packet

/-!
# Pfsnitch.Divert.Checked

The header parse and the reset once more, with every access to a buffer as the source
writes it: an index or a slice beyond the buffer, or a copy between slices of different
lengths, is a panic, which aborts the daemon.

None of them can happen (`parseChecked_eq`, `payloadOffsetChecked_eq`,
`tcpRstChecked_eq`): the functions without checks say all that there is to say.
-/

namespace Pfsnitch

open Lib

/-- What aborts the daemon. -/
inductive Panic where
  | outOfRange
  | lengthMismatch

abbrev Checked (α : Type) := Except Panic α

variable {buf : List UInt8} {pkt : Packet} {i j : Nat}

/-! ## buffers -/

/-- `buf[i]`. -/
def index (buf : List UInt8) (i : Nat) : Checked UInt8 :=
  match buf[i]? with
  | some b => .ok b
  | none => .error .outOfRange

/-- `&buf[i..j]`. -/
def slice (buf : List UInt8) (i j : Nat) : Checked (List UInt8) :=
  if i ≤ j ∧ j ≤ buf.length then .ok ((buf.drop i).take (j - i)) else .error .outOfRange

/-- `s.copy_from_slice(bytes)` into sixteen bytes. -/
def copyAddr (bytes : List UInt8) : Checked Ipv6Addr :=
  if h : bytes.length = 16 then .ok ⟨bytes, h⟩ else .error .lengthMismatch

/-- `buf[i..j].copy_from_slice(bytes)`. -/
def copyInto (buf : List UInt8) (i j : Nat) (bytes : List UInt8) : Checked (List UInt8) :=
  if i ≤ j ∧ j ≤ buf.length then
    if bytes.length = j - i then .ok (buf.take i ++ bytes ++ buf.drop j)
    else .error .lengthMismatch
  else .error .outOfRange

theorem getElem?_byteAt (h : i < buf.length) : buf[i]? = some (byteAt buf i) := by
  rw [byteAt, List.getD_eq_getElem?_getD, List.getElem?_eq_getElem h]
  rfl

theorem drop_byteAt (h : i < buf.length) : buf.drop i = byteAt buf i :: buf.drop (i + 1) := by
  have hget : buf[i] = byteAt buf i :=
    Option.some.inj ((List.getElem?_eq_getElem h).symm.trans (getElem?_byteAt h))
  rw [List.drop_eq_getElem_cons h, hget]

theorem index_eq (h : i < buf.length) : index buf i = .ok (byteAt buf i) := by
  rw [index, getElem?_byteAt h]

theorem slice_eq (hij : i ≤ j) (h : j ≤ buf.length) :
    slice buf i j = .ok ((buf.drop i).take (j - i)) := if_pos ⟨hij, h⟩

/-! ## headers -/

/-- `l3`. -/
def l3Checked (pkt : Packet) : Checked (Option L3) :=
  match pkt.head? with
  | none => .ok none
  | some b =>
    if b.toNat / 16 = 4 then
      if pkt.length < 20 then .ok none
      else do
        let ihl := (← index pkt 0).toNat % 16 * 4
        if ihl < 20 ∨ pkt.length < ihl then return none
        else
          return some {
            proto := ← index pkt 9
            src := .v4 ⟨← index pkt 12, ← index pkt 13, ← index pkt 14, ← index pkt 15⟩
            dst := .v4 ⟨← index pkt 16, ← index pkt 17, ← index pkt 18, ← index pkt 19⟩
            l4 := ihl }
    else if b.toNat / 16 = 6 then
      if pkt.length < 40 then .ok none
      else do
        let s ← copyAddr (← slice pkt 8 24)
        let d ← copyAddr (← slice pkt 24 40)
        match skipExt pkt (← index pkt 6) 40 with
        | some (proto, l4) => return some { proto, src := .v6 s, dst := .v6 d, l4 }
        | none => return none
    else .ok none

/-- `parse`. -/
def parseChecked (pkt : Packet) : Checked (Option Flow) := do
  match ← l3Checked pkt with
  | none => return none
  | some h =>
    if pkt.length < h.l4 + 4 then return none
    else
      let sport := beU16 (← index pkt h.l4) (← index pkt (h.l4 + 1))
      let dport := beU16 (← index pkt (h.l4 + 2)) (← index pkt (h.l4 + 3))
      let synOnly ←
        if h.proto = 6 ∧ pkt.length ≥ h.l4 + 14 then
          let flags ← index pkt (h.l4 + 13)
          pure (isSyn flags)
        else pure false
      return some { proto := h.proto, src := h.src, dst := h.dst, sport, dport, synOnly }

/-- `payload_offset`. -/
def payloadOffsetChecked (pkt : Packet) : Checked (Option Nat) := do
  match ← l3Checked pkt with
  | none => return none
  | some h =>
    if h.proto = 17 then return some (h.l4 + 8)
    else if h.proto = 6 then
      match pkt[h.l4 + 12]? with
      | some b => return some (h.l4 + b.toNat / 16 * 4)
      | none => return none
    else return none

theorem l3Checked_eq (pkt : Packet) : l3Checked pkt = .ok (l3 pkt) := by
  unfold l3Checked l3
  cases pkt.head? with
  | none => rfl
  | some b =>
      dsimp only
      by_cases h4 : b.toNat / 16 = 4
      · rw [if_pos h4, if_pos h4]
        by_cases hlen : pkt.length < 20
        · rw [if_pos hlen, if_pos hlen]
        · rw [if_neg hlen, if_neg hlen]
          simp (disch := omega) only [index_eq]
          simp only [bind, Except.bind, pure, Except.pure]
          split <;> rfl
      · rw [if_neg h4, if_neg h4]
        by_cases h6 : b.toNat / 16 = 6
        · rw [if_pos h6, if_pos h6]
          by_cases hlen : pkt.length < 40
          · rw [if_pos hlen, if_pos hlen]
          · rw [if_neg hlen, if_neg hlen]
            have hs : ((pkt.drop 8).take 16).length = 16 := by
              rw [List.length_take, List.length_drop]
              omega
            have hd : ((pkt.drop 24).take 16).length = 16 := by
              rw [List.length_take, List.length_drop]
              omega
            simp (disch := omega) only [index_eq, slice_eq]
            simp only [bind, Except.bind, pure, Except.pure, copyAddr, ipv6At, hs, hd, dif_pos,
              Nat.reduceSub]
            split <;> simp_all
        · rw [if_neg h6, if_neg h6]

theorem parseChecked_eq (pkt : Packet) : parseChecked pkt = .ok (parse pkt) := by
  rw [parseChecked, parse, l3Checked_eq]
  cases l3 pkt with
  | none => rfl
  | some h =>
      simp only [bind, Except.bind, pure, Except.pure]
      by_cases hlen : pkt.length < h.l4 + 4
      · rw [if_pos hlen, if_pos hlen]
      · rw [if_neg hlen, if_neg hlen]
        simp (disch := omega) only [index_eq]
        by_cases hflags : h.proto = 6 ∧ pkt.length ≥ h.l4 + 14
        · rw [if_pos hflags]
          simp [hflags]
        · rw [if_neg hflags]
          have hsyn : (h.proto == 6 && decide (pkt.length ≥ h.l4 + 14)) = false := by
            simpa using hflags
          simp only [hsyn, Bool.false_and]

theorem payloadOffsetChecked_eq (pkt : Packet) :
    payloadOffsetChecked pkt = .ok (payloadOffset pkt) := by
  rw [payloadOffsetChecked, payloadOffset, l3Checked_eq]
  cases l3 pkt with
  | none => rfl
  | some h =>
      simp only [bind, Except.bind, pure, Except.pure]
      split
      · rfl
      · split
        · cases pkt[h.l4 + 12]? <;> rfl
        · rfl

/-! ## resets -/

/-- The words of a part from index `i` on, as far as they are whole. -/
def csumWords (part : List UInt8) (i : Nat) (sum : UInt32) : Checked (Nat × UInt32) :=
  if i + 1 < part.length then do
    let hi ← index part i
    let lo ← index part (i + 1)
    csumWords part (i + 2) (sum + (beU16 hi lo).toUInt32)
  else .ok (i, sum)
termination_by part.length - i

/-- The byte left over from the parts before, paired with the first of this one. -/
def csumCarry (sum : UInt32) (carry : Option UInt8) (part : List UInt8) :
    Checked (Nat × UInt32 × Option UInt8) :=
  match carry with
  | some hi =>
    if part ≠ [] then do return (1, sum + (beU16 hi (← index part 0)).toUInt32, none)
    else return (0, sum, some hi)
  | none => return (0, sum, none)

/-- One turn of the loop of `csum` over the parts. -/
def csumPartChecked (sum : UInt32) (carry : Option UInt8) (part : List UInt8) :
    Checked (UInt32 × Option UInt8) := do
  let (i, sum, carry) ← csumCarry sum carry part
  let (i, sum) ← csumWords part i sum
  if i < part.length then
    let hi ← index part i
    return (sum, some hi)
  else return (sum, carry)

/-- `csum`. -/
def csumChecked (parts : List (List UInt8)) : Checked UInt16 := do
  let (sum, carry) ← parts.foldlM (fun (s, c) part => csumPartChecked s c part) (0, none)
  let sum := match carry with
    | some hi => sum + (beU16 hi 0).toUInt32
    | none => sum
  return ~~~ (csumFold 3 sum).toUInt16

/-- `tcp_rst`. -/
def tcpRstChecked (pkt : Packet) : Checked (Option Packet) := do
  match ← l3Checked pkt with
  | none => return none
  | some h =>
    if h.proto ≠ 6 ∨ pkt.length < h.l4 + 20 then return none
    else
      let flags ← index pkt (h.l4 + 13)
      if flags &&& 0x04 ≠ 0 then return none
      else
        let sport := beU16 (← index pkt h.l4) (← index pkt (h.l4 + 1))
        let dport := beU16 (← index pkt (h.l4 + 2)) (← index pkt (h.l4 + 3))
        let seq : UInt32 := UInt32.ofNat
          ((beU16 (← index pkt (h.l4 + 4)) (← index pkt (h.l4 + 5))).toNat * 65536 +
            (beU16 (← index pkt (h.l4 + 6)) (← index pkt (h.l4 + 7))).toNat)
        let ack := seq + if flags &&& 0x02 ≠ 0 then 1 else 0
        let tcp := be16 dport.toNat ++ be16 sport.toNat ++ be32 0 ++ be32 ack ++ [0x50] ++ [0x14] ++
          be16 0 ++ be16 0 ++ be16 0
        match h.src, h.dst with
        | .v4 s, .v4 d =>
          let pseudo := d.octets ++ s.octets ++ [0, 6, 0, 20]
          let ck ← csumChecked [pseudo, tcp]
          let tcp ← copyInto tcp 16 18 (be16 ck.toNat)
          let ip := [0x45] ++ [0] ++ be16 40 ++ be16 0 ++ be16 0 ++ [64] ++ [6] ++ be16 0 ++
            d.octets ++ s.octets
          let hc ← csumChecked [ip]
          let ip ← copyInto ip 10 12 (be16 hc.toNat)
          return some (ip ++ tcp)
        | .v6 s, .v6 d =>
          let pseudo := d.octets ++ s.octets ++ be32 20 ++ [0, 0, 0, 6]
          let ck ← csumChecked [pseudo, tcp]
          let tcp ← copyInto tcp 16 18 (be16 ck.toNat)
          return some ([0x60, 0, 0, 0] ++ be16 20 ++ [6] ++ [64] ++ d.octets ++ s.octets ++ tcp)
        | _, _ => return none

/-- The loop takes whole words and leaves at most a byte. -/
theorem csumWords_eq (part : List UInt8) (i : Nat) (sum : UInt32) (hi : i ≤ part.length) :
    ∃ j s, csumWords part i sum = .ok (j, s) ∧ j ≤ part.length ∧ part.length ≤ j + 1 ∧
      csumPart s none (part.drop j) = csumPart sum none (part.drop i) := by
  induction i, sum using csumWords.induct part with
  | case1 i sum h ih =>
      rw [csumWords, if_pos h, index_eq (by omega), index_eq h]
      simp only [bind, Except.bind]
      obtain ⟨j, s, hj, hle, hge, hsum⟩ := ih (byteAt part i) (byteAt part (i + 1)) (by omega)
      refine ⟨j, s, hj, hle, hge, hsum.trans ?_⟩
      have hi : i < part.length := by omega
      rw [drop_byteAt hi, drop_byteAt h, csumPart, csumPart]
  | case2 i sum h =>
      rw [csumWords, if_neg h]
      exact ⟨i, sum, rfl, hi, by omega, rfl⟩

theorem csumPartChecked_eq (sum : UInt32) (carry : Option UInt8) (part : List UInt8) :
    csumPartChecked sum carry part = .ok (csumPart sum carry part) := by
  have htail (i : Nat) (s : UInt32) (hi : i ≤ part.length) :
      (do
        let (i, sum) ← csumWords part i s
        if i < part.length then
          let hi ← index part i
          return (sum, some hi)
        else return (sum, none) : Checked (UInt32 × Option UInt8)) =
          .ok (csumPart s none (part.drop i)) := by
    obtain ⟨j, s', hj, hle, hge, hsum⟩ := csumWords_eq part i s hi
    rw [hj, ← hsum]
    simp only [bind, Except.bind, pure, Except.pure]
    split
    · rename_i hlt
      rw [index_eq hlt, drop_byteAt hlt, List.drop_eq_nil_of_le hge]
      rfl
    · rename_i hlt
      rw [List.drop_eq_nil_of_le (by omega)]
      rfl
  rw [csumPartChecked]
  cases carry with
  | none => exact (htail 0 sum (Nat.zero_le _)).trans rfl
  | some hi =>
      cases part with
      | nil =>
          have hcarry : csumCarry sum (some hi) [] = .ok (0, sum, some hi) := rfl
          have hwords : csumWords [] 0 sum = .ok (0, sum) := by rw [csumWords]; rfl
          rw [hcarry]
          simp only [bind, Except.bind, hwords]
          rfl
      | cons lo rest =>
          have hcarry : csumCarry sum (some hi) (lo :: rest) =
              .ok (1, sum + (beU16 hi lo).toUInt32, none) := rfl
          rw [hcarry]
          exact (htail 1 _ (by simp)).trans rfl

theorem csumChecked_eq (parts : List (List UInt8)) : csumChecked parts = .ok (csum parts) := by
  have hfold : ∀ x : UInt32 × Option UInt8,
      parts.foldlM (fun (s, c) part => csumPartChecked s c part) x =
        (.ok (parts.foldl (fun (s, c) part => csumPart s c part) x) : Checked _) := by
    induction parts with
    | nil => exact fun _ => rfl
    | cons part parts ih =>
        rintro ⟨s, c⟩
        rw [List.foldlM_cons, List.foldl_cons]
        dsimp only
        rw [csumPartChecked_eq]
        exact ih _
  rw [csumChecked, hfold]
  rfl

theorem tcpRstChecked_eq (pkt : Packet) : tcpRstChecked pkt = .ok (tcpRst pkt) := by
  rw [tcpRstChecked, tcpRst, l3Checked_eq]
  cases l3 pkt with
  | none => rfl
  | some h =>
      simp only [bind, Except.bind, pure, Except.pure]
      by_cases hlen : h.proto ≠ 6 ∨ pkt.length < h.l4 + 20
      · rw [if_pos hlen, if_pos hlen]
      · rw [if_neg hlen, if_neg hlen]
        have hlen : h.l4 + 20 ≤ pkt.length := by omega
        simp (disch := omega) only [index_eq]
        split
        · rfl
        · -- both headers have room for their checksums
          cases h.src with
          | v4 src =>
              cases h.dst with
              | v4 dst =>
                  simp only [csumChecked_eq]
                  rfl
              | v6 => rfl
          | v6 src =>
              cases h.dst with
              | v4 => rfl
              | v6 dst =>
                  simp only [csumChecked_eq]
                  rfl

end Pfsnitch
