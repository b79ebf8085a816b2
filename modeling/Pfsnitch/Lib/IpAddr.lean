import Pfsnitch.Lib.Numeral
import Mathlib.Data.List.TakeDrop

/-!
# Pfsnitch.Lib.IpAddr

IPv4 and IPv6 addresses and their text, as the Rust standard library reads
and writes them (`core::net`): the recursive-descent address parser and the
`Display` forms, with the `::` compression of the longest run of zero groups
and the dotted tail of IPv4-mapped addresses.

* `parseIpAddr_show` — an address is read back from its text;
* `mem_showIpAddr` — the characters an address text can hold;
* `two_le_count_colon` — whatever parses as an IPv6 address has two colons.
-/

namespace Pfsnitch.Lib

/-! ## addresses -/

/-- An IPv4 address: four octets. -/
structure Ipv4Addr where
  a : UInt8
  b : UInt8
  c : UInt8
  d : UInt8
deriving DecidableEq, Repr

namespace Ipv4Addr

def octets (x : Ipv4Addr) : List UInt8 := [x.a, x.b, x.c, x.d]

end Ipv4Addr

/-- An IPv6 address: sixteen octets. -/
structure Ipv6Addr where
  octets : List UInt8
  size : octets.length = 16
deriving DecidableEq, Repr

/-- An address of either family. -/
inductive IpAddr where
  | v4 (addr : Ipv4Addr)
  | v6 (addr : Ipv6Addr)
deriving DecidableEq, Repr

/-- The big-endian octets of a 16-bit group. -/
def groupOctets (g : Nat) : List UInt8 := [UInt8.ofNat (g / 256), UInt8.ofNat (g % 256)]

/-- The 16-bit groups of an octet sequence, big-endian. -/
def octetGroups : List UInt8 → List Nat
  | hi :: lo :: rest => (hi.toNat * 256 + lo.toNat) :: octetGroups rest
  | _ => []

@[simp] theorem groupOctets_pair (hi lo : UInt8) :
    groupOctets (hi.toNat * 256 + lo.toNat) = [hi, lo] := by
  have hlt := lo.toNat_lt
  have h1 : (hi.toNat * 256 + lo.toNat) / 256 = hi.toNat := by omega
  have h2 : (hi.toNat * 256 + lo.toNat) % 256 = lo.toNat := by omega
  rw [groupOctets, h1, h2, UInt8.ofNat_toNat, UInt8.ofNat_toNat]

theorem lt_of_mem_octetGroups {l : List UInt8} {g : Nat} (h : g ∈ octetGroups l) : g < 65536 := by
  induction l using octetGroups.induct with
  | case1 hi lo rest ih =>
      simp only [octetGroups, List.mem_cons] at h
      rcases h with rfl | h
      · have := hi.toNat_lt
        have := lo.toNat_lt
        omega
      · exact ih h
  | case2 l hl =>
      rw [octetGroups.eq_2 l hl] at h
      exact absurd h List.not_mem_nil

/-- Grouping and splitting again is the identity on whole groups. -/
theorem flatMap_octetGroups (n : Nat) (l : List UInt8) (h : l.length = 2 * n) :
    (octetGroups l).flatMap groupOctets = l := by
  induction n generalizing l with
  | zero =>
      rw [List.length_eq_zero_iff.mp (by omega : l.length = 0)]
      rfl
  | succ n ih =>
      match l, h with
      | hi :: lo :: rest, h =>
          simp only [List.length_cons] at h
          simp [octetGroups, ih rest (by omega)]

theorem length_octetGroups (n : Nat) (l : List UInt8) (h : l.length = 2 * n) :
    (octetGroups l).length = n := by
  induction n generalizing l with
  | zero =>
      rw [List.length_eq_zero_iff.mp (by omega : l.length = 0)]
      rfl
  | succ n ih =>
      match l, h with
      | hi :: lo :: rest, h =>
          simp only [List.length_cons] at h
          simp [octetGroups, ih rest (by omega)]

namespace Ipv6Addr

/-- `Ipv6Addr::segments`. -/
def segments (x : Ipv6Addr) : List Nat := octetGroups x.octets

theorem length_segments (x : Ipv6Addr) : x.segments.length = 8 :=
  length_octetGroups 8 x.octets x.size

/-- The address with the given groups; missing groups are zero. -/
def ofSegments (gs : List Nat) : Ipv6Addr where
  octets := (gs.takeD 8 0).flatMap groupOctets
  size := by simp [groupOctets]

theorem ofSegments_segments (x : Ipv6Addr) : ofSegments x.segments = x := by
  have htake : x.segments.takeD 8 0 = x.segments := by
    rw [List.takeD_eq_take _ (by rw [length_segments])]
    exact List.take_of_length_le (by rw [length_segments])
  have hoct : (ofSegments x.segments).octets = x.octets := by
    simp only [ofSegments, htake]
    exact flatMap_octetGroups 8 x.octets x.size
  cases x
  simp only [ofSegments, Ipv6Addr.mk.injEq] at hoct ⊢
  exact hoct

end Ipv6Addr

/-! ## text -/

/-- Decimal text of an octet. -/
def showOctet (o : UInt8) : Str := Nat.toDigits 10 o.toNat

/-- `Display for Ipv4Addr`. -/
def showIpv4 (x : Ipv4Addr) : Str :=
  showOctet x.a ++ '.' :: (showOctet x.b ++ '.' :: (showOctet x.c ++ '.' :: showOctet x.d))

/-- The hexadecimal text of a group (`{:x}`). -/
def showGroup (g : Nat) : Str := Nat.toDigits 16 g

/-- Groups each preceded by a colon. -/
def showTail (gs : List Nat) : Str := gs.flatMap fun g => ':' :: showGroup g

/-- `fmt_subslice`: groups separated by colons. -/
def showGroups : List Nat → Str
  | [] => []
  | g :: gs => showGroup g ++ showTail gs

/-- A run of zero groups, found while scanning. -/
structure Span where
  start : Nat
  len : Nat

/-- One pass over the groups from index `i`, keeping the longest run of zeros
seen so far and the run ending here. -/
def longestZeros (i : Nat) (longest current : Span) : List Nat → Span
  | [] => longest
  | g :: gs =>
    if g = 0 then
      let current' : Span :=
        if current.len = 0 then ⟨i, 1⟩ else ⟨current.start, current.len + 1⟩
      longestZeros (i + 1) (if current'.len > longest.len then current' else longest) current' gs
    else longestZeros (i + 1) longest ⟨0, 0⟩ gs

/-- `to_ipv4_mapped`: the embedded address of `::ffff:a.b.c.d`. -/
def toIpv4Mapped (x : Ipv6Addr) : Option Ipv4Addr :=
  match x.octets with
  | [0, 0, 0, 0, 0, 0, 0, 0, 0, 0, 0xff, 0xff, a, b, c, d] => some ⟨a, b, c, d⟩
  | _ => none

/-- `Display for Ipv6Addr`. -/
def showIpv6 (x : Ipv6Addr) : Str :=
  match toIpv4Mapped x with
  | some v4 => "::ffff:".toList ++ showIpv4 v4
  | none =>
    let z := longestZeros 0 ⟨0, 0⟩ ⟨0, 0⟩ x.segments
    if z.len > 1 then
      showGroups (x.segments.take z.start) ++ "::".toList ++
        showGroups (x.segments.drop (z.start + z.len))
    else showGroups x.segments

/-- `Display for IpAddr`. -/
def showIpAddr : IpAddr → Str
  | .v4 x => showIpv4 x
  | .v6 x => showIpv6 x

/-! ## the address parser -/

/-- `read_given_char`. -/
def readGiven (c : Char) : Str → Option Str
  | [] => none
  | x :: s => if x = c then some s else none

/-- `read_ipv4_addr`: four octets without leading zeros, separated by dots. -/
def readIpv4 (s : Str) : Option (Ipv4Addr × Str) := do
  let (a, s) ← readNumber 10 3 false 255 s
  let s ← readGiven '.' s
  let (b, s) ← readNumber 10 3 false 255 s
  let s ← readGiven '.' s
  let (c, s) ← readNumber 10 3 false 255 s
  let s ← readGiven '.' s
  let (d, s) ← readNumber 10 3 false 255 s
  some (⟨UInt8.ofNat a, UInt8.ofNat b, UInt8.ofNat c, UInt8.ofNat d⟩, s)

/-- `read_separator(':', i, _)`: the separator is read when `i > 0`. -/
def readSeparator (i : Nat) (s : Str) : Option Str :=
  if i > 0 then readGiven ':' s else some s

/-- `read_groups` from index `i` with `left` slots left: the groups read, a
flag for a trailing embedded IPv4 address, and the unread text. -/
def readGroups : Nat → Nat → Str → List Nat × Bool × Str
  | 0, _, s => ([], false, s)
  | left + 1, i, s =>
    -- an embedded IPv4 address takes two groups, so one more slot must be left
    match (if left > 0 then (readSeparator i s).bind readIpv4 else none) with
    | some (v4, rest) =>
      ([v4.a.toNat * 256 + v4.b.toNat, v4.c.toNat * 256 + v4.d.toNat], true, rest)
    | none =>
      match (readSeparator i s).bind (readNumber 16 4 true 65535) with
      | some (g, rest) =>
        let r := readGroups left (i + 1) rest
        (g :: r.1, r.2)
      | none => ([], false, s)

/-- `read_ipv6_addr`. -/
def readIpv6 (s : Str) : Option (Ipv6Addr × Str) :=
  let (head, headIpv4, rest) := readGroups 8 0 s
  if head.length = 8 then some (Ipv6Addr.ofSegments head, rest)
  else if headIpv4 then none
  else do
    let s ← readGiven ':' rest
    let s ← readGiven ':' s
    let (tail, _, s) := readGroups (8 - (head.length + 1)) 0 s
    some (Ipv6Addr.ofSegments
      (head ++ List.replicate (8 - head.length - tail.length) 0 ++ tail), s)

/-- `Ipv6Addr::from_str`: the whole text must be consumed. -/
def parseIpv6 (s : Str) : Option Ipv6Addr :=
  match readIpv6 s with
  | some (x, []) => some x
  | _ => none

/-- `read_ip_addr`. -/
def readIpAddr (s : Str) : Option (IpAddr × Str) :=
  match readIpv4 s with
  | some (x, rest) => some (.v4 x, rest)
  | none => (readIpv6 s).map fun r => (.v6 r.1, r.2)

/-- `IpAddr::from_str`. -/
def parseIpAddr (s : Str) : Option IpAddr :=
  match readIpAddr s with
  | some (x, []) => some x
  | _ => none

example : parseIpAddr "2606:4700::1111".toList =
    some (.v6 (Ipv6Addr.ofSegments [0x2606, 0x4700, 0, 0, 0, 0, 0, 0x1111])) := by decide

example : (parseIpAddr "2606:0:0::1".toList).map showIpAddr = some "2606::1".toList := by decide

/-! ## reading back an IPv4 address -/

@[simp] theorem readGiven_cons (c : Char) (s : Str) : readGiven c (c :: s) = some s := by
  simp [readGiven]

theorem readGiven_eq_some {c : Char} {s r : Str} (h : readGiven c s = some r) : s = c :: r := by
  cases s with
  | nil => simp [readGiven] at h
  | cons x s =>
      simp only [readGiven] at h
      split_ifs at h with hx
      rw [hx, Option.some.inj h]

/-- An octet is read back when no digit follows. -/
theorem readNumber_showOctet (o : UInt8) {rest : Str}
    (hrest : ∀ c, rest.head? = some c → isDigitOf 10 c = false) :
    readNumber 10 3 false 255 (showOctet o ++ rest) = some (o.toNat, rest) := by
  have := o.toNat_lt
  exact readNumber_toDigits (by decide) (by decide) (by decide) (by omega) (by omega) hrest

private theorem dot_not_digit {s : Str} (c : Char) (h : ('.' :: s).head? = some c) :
    isDigitOf 10 c = false := by
  simp only [List.head?_cons, Option.some.injEq] at h
  subst h
  decide

/-- An IPv4 address is read back when no digit follows. -/
theorem readIpv4_showIpv4 (x : Ipv4Addr) (rest : Str)
    (hrest : ∀ c, rest.head? = some c → isDigitOf 10 c = false) :
    readIpv4 (showIpv4 x ++ rest) = some (x, rest) := by
  obtain ⟨a, b, c, d⟩ := x
  simp only [showIpv4, List.append_assoc, List.cons_append, readIpv4]
  rw [readNumber_showOctet a dot_not_digit]
  simp only [Option.bind_eq_bind, Option.bind_some, readGiven_cons]
  rw [readNumber_showOctet b dot_not_digit]
  simp only [Option.bind_some, readGiven_cons]
  rw [readNumber_showOctet c dot_not_digit]
  simp only [Option.bind_some, readGiven_cons]
  rw [readNumber_showOctet d hrest]
  simp

/-- Reading an IPv4 address consumes a prefix that holds a dot. -/
theorem readIpv4_eq_some {s rest : Str} {x : Ipv4Addr} (h : readIpv4 s = some (x, rest)) :
    ∃ pre, s = pre ++ rest ∧ '.' ∈ pre := by
  simp only [readIpv4, Option.bind_eq_bind, Option.bind_eq_some_iff] at h
  obtain ⟨⟨a, s₁⟩, ha, s₂, h₂, ⟨b, s₃⟩, hb, s₄, h₄, ⟨c, s₅⟩, hc, s₆, h₆, ⟨d, s₇⟩, hd, h⟩ := h
  obtain ⟨da, rfl, -, -⟩ := readNumber_eq_some ha
  obtain rfl := readGiven_eq_some h₂
  obtain ⟨db, rfl, -, -⟩ := readNumber_eq_some hb
  obtain rfl := readGiven_eq_some h₄
  obtain ⟨dc, rfl, -, -⟩ := readNumber_eq_some hc
  obtain rfl := readGiven_eq_some h₆
  obtain ⟨dd, rfl, -, -⟩ := readNumber_eq_some hd
  obtain rfl : s₇ = rest := congrArg Prod.snd (Option.some.inj h)
  exact ⟨da ++ '.' :: (db ++ '.' :: (dc ++ '.' :: dd)), by simp, by simp⟩

/-- Text without a dot holds no IPv4 address. -/
theorem readIpv4_eq_none {s : Str} (h : '.' ∉ s) : readIpv4 s = none := by
  cases hr : readIpv4 s with
  | none => rfl
  | some r =>
      obtain ⟨pre, rfl, hdot⟩ := readIpv4_eq_some (show readIpv4 _ = some (r.1, r.2) from hr)
      exact absurd (List.mem_append_left _ hdot) h

/-- Text that does not start with a digit holds no IPv4 address. -/
theorem readIpv4_of_head {s : Str} (h : ∀ c, s.head? = some c → isDigitOf 10 c = false) :
    readIpv4 s = none := by
  simp [readIpv4, readNumber_of_head h]

/-! ## reading back groups -/

private theorem colon_not_hex {s : Str} (c : Char) (h : (':' :: s).head? = some c) :
    isDigitOf 16 c = false := by
  simp only [List.head?_cons, Option.some.injEq] at h
  subst h
  decide

/-- A group is read back when no hexadecimal digit follows. -/
theorem readNumber_showGroup {g : Nat} (hg : g < 65536) (rest : Str)
    (hrest : ∀ c, rest.head? = some c → isDigitOf 16 c = false) :
    readNumber 16 4 true 65535 (showGroup g ++ rest) = some (g, rest) :=
  readNumber_toDigits (by decide) (by decide) (by decide) (by omega) (by omega) hrest

theorem dot_not_mem_showGroup (g : Nat) : '.' ∉ showGroup g := fun h =>
  absurd (isDigitOf_of_mem_toDigits (by decide) (by decide) h) (by decide)

theorem dot_not_mem_showTail (gs : List Nat) : '.' ∉ showTail gs := by
  simp only [showTail, List.mem_flatMap, List.mem_cons, not_exists, not_and, not_or]
  exact fun g _ => ⟨by decide, dot_not_mem_showGroup g⟩

theorem dot_not_mem_showGroups (gs : List Nat) : '.' ∉ showGroups gs := by
  cases gs with
  | nil => exact List.not_mem_nil
  | cons g gs =>
      simp only [showGroups, List.mem_append, not_or]
      exact ⟨dot_not_mem_showGroup g, dot_not_mem_showTail gs⟩

/-- Where a list of groups ends: the text is over, or a `::` follows. -/
def GroupsEnd (rest : Str) : Prop := rest = [] ∨ ∃ r, rest = ':' :: ':' :: r

theorem GroupsEnd.head {rest : Str} (h : GroupsEnd rest) (c : Char)
    (hc : rest.head? = some c) : isDigitOf 16 c = false := by
  rcases h with rfl | ⟨r, rfl⟩
  · simp at hc
  · exact colon_not_hex c hc

/-- The text of further groups never goes on with a digit. -/
theorem head_showTail_append {gs : List Nat} {rest : Str} (h : GroupsEnd rest) (c : Char)
    (hc : (showTail gs ++ rest).head? = some c) : isDigitOf 16 c = false := by
  cases gs with
  | nil => exact h.head c hc
  | cons g gs => exact colon_not_hex c hc

/-- No further group is read where the groups end. -/
theorem readGroups_end {left i : Nat} {rest : Str} (hdot : '.' ∉ rest) (hend : GroupsEnd rest) :
    readGroups left i rest = ([], false, rest) := by
  cases left with
  | zero => rfl
  | succ left =>
      have hv4 : (readSeparator i rest).bind readIpv4 = none := by
        cases hs : readSeparator i rest with
        | none => rfl
        | some r =>
            have hr : '.' ∉ r := by
              simp only [readSeparator] at hs
              split_ifs at hs
              · rw [readGiven_eq_some hs] at hdot
                exact fun h => hdot (List.mem_cons_of_mem _ h)
              · exact Option.some.inj hs ▸ hdot
            exact readIpv4_eq_none hr
      have hgrp : (readSeparator i rest).bind (readNumber 16 4 true 65535) = none := by
        rcases hend with rfl | ⟨r, rfl⟩ <;> simp only [readSeparator] <;> split_ifs
        · rfl
        · change readNumber 16 4 true 65535 [] = none
          exact readNumber_of_head fun c hc => by simp at hc
        · rw [readGiven_cons]
          change readNumber 16 4 true 65535 (':' :: r) = none
          exact readNumber_of_head fun c hc => colon_not_hex c hc
        · change readNumber 16 4 true 65535 (':' :: ':' :: r) = none
          exact readNumber_of_head fun c hc => colon_not_hex c hc
      simp [readGroups, hv4, hgrp]

/-- One group with its separator is read, and reading goes on after it. -/
theorem readGroups_step {left i g : Nat} {s rest : Str} (hg : g < 65536)
    (hsep : readSeparator i s = some (showGroup g ++ rest)) (hdot : '.' ∉ rest)
    (hrest : ∀ c, rest.head? = some c → isDigitOf 16 c = false) :
    readGroups (left + 1) i s =
      (g :: (readGroups left (i + 1) rest).1, (readGroups left (i + 1) rest).2) := by
  have hv4 : (readSeparator i s).bind readIpv4 = none := by
    rw [hsep]
    apply readIpv4_eq_none
    simp only [List.mem_append, not_or]
    exact ⟨dot_not_mem_showGroup g, hdot⟩
  have hgrp : (readSeparator i s).bind (readNumber 16 4 true 65535) = some (g, rest) := by
    rw [hsep]
    exact readNumber_showGroup hg _ hrest
  simp [readGroups, hv4, hgrp]

/-- Groups with their separators are all read back. -/
theorem readGroups_showTail {gs : List Nat} {left i : Nat} {rest : Str} (hi : 0 < i)
    (hlen : gs.length ≤ left) (hgs : ∀ g ∈ gs, g < 65536) (hdot : '.' ∉ rest)
    (hend : GroupsEnd rest) :
    readGroups left i (showTail gs ++ rest) = (gs, false, rest) := by
  induction gs generalizing left i with
  | nil => exact readGroups_end hdot hend
  | cons g gs ih =>
      obtain ⟨left, rfl⟩ : ∃ k, left = k + 1 := ⟨left - 1, by simp at hlen; omega⟩
      have hsep : readSeparator i (showTail (g :: gs) ++ rest) =
          some (showGroup g ++ (showTail gs ++ rest)) := by
        simp [readSeparator, hi, showTail]
      have hd : '.' ∉ showTail gs ++ rest := by
        simp only [List.mem_append, not_or]
        exact ⟨dot_not_mem_showTail gs, hdot⟩
      rw [readGroups_step (hgs g (by simp)) hsep hd fun c hc => head_showTail_append hend c hc,
        ih (by omega) (by simpa using hlen) fun g' hg' => hgs g' (by simp [hg'])]

/-- Groups at the start of a text are all read back. -/
theorem readGroups_showGroups {gs : List Nat} {left : Nat} {rest : Str}
    (hlen : gs.length ≤ left) (hgs : ∀ g ∈ gs, g < 65536) (hdot : '.' ∉ rest)
    (hend : GroupsEnd rest) :
    readGroups left 0 (showGroups gs ++ rest) = (gs, false, rest) := by
  cases gs with
  | nil => exact readGroups_end hdot hend
  | cons g gs =>
      obtain ⟨left, rfl⟩ : ∃ k, left = k + 1 := ⟨left - 1, by simp at hlen; omega⟩
      have hsep : readSeparator 0 (showGroups (g :: gs) ++ rest) =
          some (showGroup g ++ (showTail gs ++ rest)) := by
        simp [readSeparator, showGroups]
      have hd : '.' ∉ showTail gs ++ rest := by
        simp only [List.mem_append, not_or]
        exact ⟨dot_not_mem_showTail gs, hdot⟩
      rw [readGroups_step (hgs g (by simp)) hsep hd fun c hc => head_showTail_append hend c hc,
        readGroups_showTail (by omega) (by simpa using hlen)
          (fun g' hg' => hgs g' (by simp [hg'])) hdot hend]

/-! ## the longest run of zeros -/

/-- Every group the span names is a zero. -/
def ZeroSpan (gs : List Nat) (z : Span) : Prop :=
  ∀ k, z.start ≤ k → k < z.start + z.len → gs[k]? = some 0

theorem zeroSpan_empty (gs : List Nat) (k : Nat) : ZeroSpan gs ⟨k, 0⟩ := by
  intro j h1 h2
  simp only [Nat.add_zero] at h1 h2
  omega

/-- The span the scan ends with holds only zeros: the run ending at the scan
position and the longest run so far are both runs of zeros. -/
theorem zeroSpan_longestZeros {gs : List Nat} (rest : List Nat) {i : Nat} {longest current : Span}
    (hrest : gs.drop i = rest) (hl : ZeroSpan gs longest) (hc : ZeroSpan gs current)
    (hend : current.len = 0 ∨ current.start + current.len = i) :
    ZeroSpan gs (longestZeros i longest current rest) := by
  induction rest generalizing i longest current with
  | nil => exact hl
  | cons g rest ih =>
      have hgi : gs[i]? = some g := by
        rw [← List.head?_drop, hrest]
        rfl
      have hdrop : gs.drop (i + 1) = rest := by
        rw [← List.drop_drop, hrest]
        rfl
      simp only [longestZeros]
      by_cases hg : g = 0
      · rw [if_pos hg]
        have hgrown : ∀ cur : Span, ZeroSpan gs cur → cur.start + cur.len = i + 1 →
            ZeroSpan gs (longestZeros (i + 1) (if cur.len > longest.len then cur else longest)
              cur rest) := by
          intro cur hcur hcurEnd
          refine ih hdrop ?_ hcur (.inr hcurEnd)
          split_ifs
          · exact hcur
          · exact hl
        apply hgrown
        · intro k h1 h2
          by_cases hk : k = i
          · rw [hk, hgi, hg]
          · split_ifs at h1 h2 with hempty
            · simp only at h1 h2
              omega
            · simp only at h1 h2
              exact hc k h1 (by omega)
        · split_ifs with hempty
          · rfl
          · simp only
            omega
      · rw [if_neg hg]
        exact ih hdrop hl (zeroSpan_empty gs 0) (.inl rfl)

/-- A span of zeros splits the groups around it. -/
theorem ZeroSpan.split {gs : List Nat} {z : Span} (h : ZeroSpan gs z) (hpos : 0 < z.len) :
    z.start + z.len ≤ gs.length ∧
      gs = gs.take z.start ++ (List.replicate z.len 0 ++ gs.drop (z.start + z.len)) := by
  have hle : z.start + z.len ≤ gs.length := by
    have hlast := h (z.start + z.len - 1) (by omega) (by omega)
    have := (List.getElem?_eq_some_iff.mp hlast).1
    omega
  refine ⟨hle, ?_⟩
  have hmid : (gs.drop z.start).take z.len = List.replicate z.len 0 := by
    apply List.eq_replicate_iff.mpr
    refine ⟨by simp only [List.length_take, List.length_drop]; omega, fun g hg => ?_⟩
    obtain ⟨k, hk, rfl⟩ := List.getElem_of_mem hg
    simp only [List.length_take, List.length_drop] at hk
    have := h (z.start + k) (by omega) (by omega)
    rw [List.getElem_take, List.getElem_drop]
    exact (List.getElem?_eq_some_iff.mp this).2
  rw [← hmid, ← List.drop_drop, List.take_append_drop, List.take_append_drop]

/-! ## reading back an IPv6 address -/

theorem toIpv4Mapped_eq_some {x : Ipv6Addr} {v : Ipv4Addr} (h : toIpv4Mapped x = some v) :
    x.octets = List.replicate 10 0 ++ [0xff, 0xff, v.a, v.b, v.c, v.d] := by
  unfold toIpv4Mapped at h
  split at h
  · rename_i a b c d hoct
    rw [hoct, ← Option.some.inj h]
    rfl
  · cases h

private theorem hex_f_head {s : Str} (c : Char) (h : ("ffff:".toList ++ s).head? = some c) :
    isDigitOf 10 c = false := by
  have : c = 'f' := by simpa using h.symm
  subst this
  decide

/-- The tail of an IPv4-mapped address is read as three groups' worth. -/
theorem readGroups_mapped (v : Ipv4Addr) :
    readGroups 7 0 ("ffff:".toList ++ showIpv4 v) =
      ([0xffff, v.a.toNat * 256 + v.b.toNat, v.c.toNat * 256 + v.d.toNat], true, []) := by
  have h1 : readNumber 16 4 true 65535 ("ffff:".toList ++ showIpv4 v) =
      some (0xffff, ':' :: showIpv4 v) := by
    have h := readNumber_showGroup (g := 0xffff) (by decide) (':' :: showIpv4 v)
      fun c hc => colon_not_hex c hc
    have htext : showGroup 0xffff = "ffff".toList := by decide
    rw [htext] at h
    exact h
  have h2 : readIpv4 (showIpv4 v) = some (v, []) := by
    have h := readIpv4_showIpv4 v [] (by simp)
    rwa [List.append_nil] at h
  simp only [readGroups, readSeparator, readIpv4_of_head (fun c hc => hex_f_head c hc), h1, h2,
    Nat.lt_irrefl, gt_iff_lt, if_false, if_true, Option.bind_some, Nat.zero_lt_succ, readGiven_cons,
    zero_add]

/-- Text with a non-digit in front holds no group. -/
theorem readGroups_of_head {left : Nat} {s : Str}
    (h : ∀ c, s.head? = some c → isDigitOf 10 c = false ∧ isDigitOf 16 c = false) :
    readGroups left 0 s = ([], false, s) := by
  cases left with
  | zero => rfl
  | succ left =>
      simp [readGroups, readSeparator, readIpv4_of_head fun c hc => (h c hc).1,
        readNumber_of_head fun c hc => (h c hc).2]

/-- Groups before and after a `::` are filled up with zeros to eight. -/
theorem readIpv6_compressed {s t rest : Str} {head tail : List Nat} {tailIpv4 : Bool}
    (hhead : readGroups 8 0 s = (head, false, ':' :: ':' :: t)) (hlen : head.length < 8)
    (htail : readGroups (8 - (head.length + 1)) 0 t = (tail, tailIpv4, rest)) :
    readIpv6 s = some (Ipv6Addr.ofSegments
      (head ++ List.replicate (8 - head.length - tail.length) 0 ++ tail), rest) := by
  simp only [readIpv6, hhead, if_neg (Nat.ne_of_lt hlen), readGiven_cons, Option.bind_eq_bind,
    Option.bind_some, htail, Bool.false_eq_true, if_false]

theorem parseIpv6_mapped {x : Ipv6Addr} {v : Ipv4Addr} (h : toIpv4Mapped x = some v) :
    parseIpv6 ("::ffff:".toList ++ showIpv4 v) = some x := by
  have hhead : readGroups 8 0 ("::ffff:".toList ++ showIpv4 v) =
      ([], false, ':' :: ':' :: ("ffff:".toList ++ showIpv4 v)) := by
    refine readGroups_of_head fun c hc => ?_
    obtain rfl : c = ':' := by simpa using hc.symm
    decide
  have hx : Ipv6Addr.ofSegments (List.replicate 5 0 ++
      [0xffff, v.a.toNat * 256 + v.b.toNat, v.c.toNat * 256 + v.d.toNat]) = x := by
    rw [← Ipv6Addr.ofSegments_segments x, Ipv6Addr.segments, toIpv4Mapped_eq_some h]
    rfl
  rw [parseIpv6, readIpv6_compressed hhead (by decide) (readGroups_mapped v)]
  exact congrArg some hx

/-- An IPv6 address is read back from its text. -/
theorem parseIpv6_showIpv6 (x : Ipv6Addr) : parseIpv6 (showIpv6 x) = some x := by
  have hseg : ∀ g ∈ x.segments, g < 65536 := fun g hg => lt_of_mem_octetGroups hg
  have hlen := x.length_segments
  unfold showIpv6
  cases hm : toIpv4Mapped x with
  | some v => exact parseIpv6_mapped hm
  | none =>
      simp only
      split_ifs with hz
      · set z := longestZeros 0 ⟨0, 0⟩ ⟨0, 0⟩ x.segments with hzdef
        have hspan : ZeroSpan x.segments z :=
          zeroSpan_longestZeros x.segments rfl (zeroSpan_empty _ 0) (zeroSpan_empty _ 0) (.inl rfl)
        obtain ⟨hle, hsplit⟩ := hspan.split (by omega)
        have htakeLen : (x.segments.take z.start).length = z.start := by
          rw [List.length_take]
          omega
        have hdropLen : (x.segments.drop (z.start + z.len)).length = 8 - (z.start + z.len) := by
          rw [List.length_drop, hlen]
        have hend : GroupsEnd ("::".toList ++ showGroups (x.segments.drop (z.start + z.len))) :=
          .inr ⟨_, rfl⟩
        have hdot : '.' ∉ "::".toList ++ showGroups (x.segments.drop (z.start + z.len)) := by
          simpa using dot_not_mem_showGroups _
        have hhead := readGroups_showGroups (by omega : (x.segments.take z.start).length ≤ 8)
          (fun g hg => hseg g (List.mem_of_mem_take hg)) hdot hend
        have hposts : ∀ g ∈ x.segments.drop (z.start + z.len), g < 65536 :=
          fun g hg => hseg g (List.mem_of_mem_drop hg)
        have htail : readGroups (8 - ((x.segments.take z.start).length + 1)) 0
            (showGroups (x.segments.drop (z.start + z.len))) =
              (x.segments.drop (z.start + z.len), false, []) := by
          have h := readGroups_showGroups (by rw [htakeLen, hdropLen]; omega :
              (x.segments.drop (z.start + z.len)).length ≤
                8 - ((x.segments.take z.start).length + 1))
            hposts List.not_mem_nil (.inl rfl)
          rwa [List.append_nil] at h
        have hread := readIpv6_compressed hhead (by omega) htail
        have hfill : 8 - (x.segments.take z.start).length -
            (x.segments.drop (z.start + z.len)).length = z.len := by omega
        rw [hfill, List.append_assoc, ← hsplit, Ipv6Addr.ofSegments_segments] at hread
        rw [List.append_assoc, parseIpv6, hread]
      · have h := readGroups_showGroups (by omega : x.segments.length ≤ 8) hseg
          List.not_mem_nil (.inl rfl)
        rw [List.append_nil] at h
        simp [parseIpv6, readIpv6, h, hlen, Ipv6Addr.ofSegments_segments]

/-- An address of either family is read back from its text. -/
theorem parseIpAddr_show (x : IpAddr) : parseIpAddr (showIpAddr x) = some x := by
  cases x with
  | v4 x =>
      have h := readIpv4_showIpv4 x [] (by simp)
      rw [List.append_nil] at h
      simp [parseIpAddr, readIpAddr, showIpAddr, h]
  | v6 x =>
      have hnone : readIpv4 (showIpv6 x) = none := by
        unfold showIpv6
        cases hm : toIpv4Mapped x with
        | some v =>
            refine readIpv4_of_head fun c hc => ?_
            obtain rfl : c = ':' := by simpa using hc.symm
            decide
        | none =>
            simp only
            split_ifs <;> apply readIpv4_eq_none
            · simpa [not_or] using ⟨dot_not_mem_showGroups _, dot_not_mem_showGroups _⟩
            · exact dot_not_mem_showGroups _
      have hv6 := parseIpv6_showIpv6 x
      simp only [parseIpv6] at hv6
      cases hr : readIpv6 (showIpv6 x) with
      | none => simp [hr] at hv6
      | some r =>
          obtain ⟨y, rest⟩ := r
          cases rest with
          | cons c rest => simp [hr] at hv6
          | nil =>
              have : y = x := by simpa [hr] using hv6
              simp [parseIpAddr, readIpAddr, showIpAddr, hnone, hr, this]

/-! ## what an address text holds -/

/-- The characters of an address: hexadecimal digits, dots and colons. -/
def isAddrChar (c : Char) : Bool := (hexValue c).isSome || c == '.' || c == ':'

/-- Digits are address characters. -/
theorem isAddrChar_of_isDigitOf {radix : Nat} {c : Char} (h : isDigitOf radix c = true) :
    isAddrChar c = true := by
  obtain ⟨d, hd⟩ := Option.isSome_iff_exists.mp h
  simp [isAddrChar, (Option.filter_eq_some_iff.mp hd).1]

theorem isAddrChar_of_mem_toDigits {radix n : Nat} (h2 : 1 < radix) (hr : radix ≤ 16) {c : Char}
    (h : c ∈ Nat.toDigits radix n) : isAddrChar c = true :=
  isAddrChar_of_isDigitOf (isDigitOf_of_mem_toDigits h2 hr h)

theorem isAddrChar_of_mem_showIpv4 {x : Ipv4Addr} {c : Char} (h : c ∈ showIpv4 x) :
    isAddrChar c = true := by
  simp only [showIpv4, List.mem_append, List.mem_cons] at h
  rcases h with h | rfl | h | rfl | h | rfl | h
  all_goals first
    | exact isAddrChar_of_mem_toDigits (by decide) (by decide) h
    | decide

theorem isAddrChar_of_mem_showGroups {gs : List Nat} {c : Char} (h : c ∈ showGroups gs) :
    isAddrChar c = true := by
  have hgroup : ∀ g, c ∈ showGroup g → isAddrChar c = true :=
    fun g hg => isAddrChar_of_mem_toDigits (by decide) (by decide) hg
  cases gs with
  | nil => exact absurd h List.not_mem_nil
  | cons g gs =>
      simp only [showGroups, showTail, List.mem_append, List.mem_flatMap, List.mem_cons] at h
      rcases h with h | ⟨g', -, rfl | h⟩
      · exact hgroup g h
      · decide
      · exact hgroup g' h

/-- An address text holds nothing but digits, dots and colons. -/
theorem mem_showIpAddr {x : IpAddr} {c : Char} (h : c ∈ showIpAddr x) : isAddrChar c = true := by
  cases x with
  | v4 x => exact isAddrChar_of_mem_showIpv4 h
  | v6 x =>
      simp only [showIpAddr, showIpv6] at h
      cases hm : toIpv4Mapped x with
      | some v =>
          simp only [hm, List.mem_append] at h
          rcases h with h | h
          · revert h
            exact (by decide : ∀ d ∈ "::ffff:".toList, isAddrChar d = true) c
          · exact isAddrChar_of_mem_showIpv4 h
      | none =>
          simp only [hm] at h
          split_ifs at h
          · simp only [List.mem_append] at h
            rcases h with (h | h) | h
            · exact isAddrChar_of_mem_showGroups h
            · revert h
              exact (by decide : ∀ d ∈ "::".toList, isAddrChar d = true) c
            · exact isAddrChar_of_mem_showGroups h
          · exact isAddrChar_of_mem_showGroups h

/-- Address characters are neither white space nor punctuation a rule uses. -/
theorem isAddrChar_token {c : Char} (h : isAddrChar c = true) :
    isWhitespace c = false ∧ c ≠ '#' ∧ c ≠ '[' ∧ c ≠ ']' := by
  have hnat : (46 ≤ c.toNat ∧ c.toNat ≤ 58) ∨ (65 ≤ c.toNat ∧ c.toNat ≤ 70) ∨
      (97 ≤ c.toNat ∧ c.toNat ≤ 102) := by
    simp only [isAddrChar, Bool.or_eq_true, beq_iff_eq] at h
    rcases h with (h | rfl) | rfl
    · obtain ⟨d, hd⟩ := Option.isSome_iff_exists.mp h
      simp only [hexValue] at hd
      split_ifs at hd <;> omega
    · decide
    · decide
  refine ⟨?_, ?_, ?_, ?_⟩
  · simp only [isWhitespace, Bool.or_eq_false_iff, Bool.and_eq_false_iff, beq_eq_false_iff_ne,
      decide_eq_false_iff_not]
    omega
  all_goals
    rintro rfl
    revert hnat
    decide

/-- An IPv4 address has no colon. -/
theorem colon_not_mem_showIpv4 (x : Ipv4Addr) : ':' ∉ showIpv4 x := by
  have hoct : ∀ o, ':' ∉ showOctet o := fun o h =>
    absurd (isDigitOf_of_mem_toDigits (by decide) (by decide) h) (by decide)
  simp [showIpv4, hoct]

/-! ## colons -/

/-- Every group but the first is preceded by a colon; an embedded IPv4 address
stands for one more group. -/
theorem length_readGroups_le {left i : Nat} {s rest : Str} {gs : List Nat} {b : Bool}
    (h : readGroups left i s = (gs, b, rest)) :
    ∃ pre, s = pre ++ rest ∧ gs.length ≤ pre.count ':' + (if i = 0 then 2 else 1) := by
  induction left generalizing i s gs b with
  | zero =>
      simp only [readGroups, Prod.mk.injEq] at h
      obtain ⟨rfl, -, rfl⟩ := h
      exact ⟨[], rfl, Nat.zero_le _⟩
  | succ left ih =>
      have hsep : ∀ r, readSeparator i s = some r →
          ∃ pre, s = pre ++ r ∧ 1 ≤ pre.count ':' + (if i = 0 then 1 else 0) := by
        intro r hr
        simp only [readSeparator] at hr
        split_ifs at hr with hi
        · exact ⟨[':'], readGiven_eq_some hr, by simp⟩
        · exact ⟨[], Option.some.inj hr, by simp [show i = 0 by omega]⟩
      simp only [readGroups] at h
      split at h
      · rename_i v4 r hv4
        simp only [Prod.mk.injEq] at h
        obtain ⟨rfl, -, rfl⟩ := h
        split_ifs at hv4
        obtain ⟨t, ht, hread⟩ := Option.bind_eq_some_iff.mp hv4
        obtain ⟨pre, rfl, hpre⟩ := hsep t ht
        obtain ⟨pre', rfl, -⟩ := readIpv4_eq_some hread
        refine ⟨pre ++ pre', (List.append_assoc ..).symm, ?_⟩
        simp only [List.count_append, List.length_cons, List.length_nil]
        split_ifs at hpre ⊢ <;> omega
      · split at h
        · rename_i g r hg
          rcases hmore : readGroups left (i + 1) r with ⟨gs', b', rest'⟩
          simp only [hmore, Prod.mk.injEq] at h
          obtain ⟨rfl, -, rfl⟩ := h
          obtain ⟨t, ht, hread⟩ := Option.bind_eq_some_iff.mp hg
          obtain ⟨pre, rfl, hpre⟩ := hsep t ht
          obtain ⟨ds, rfl, -, -⟩ := readNumber_eq_some hread
          obtain ⟨pre', rfl, hlen⟩ := ih hmore
          refine ⟨pre ++ (ds ++ pre'), by simp, ?_⟩
          rw [if_neg (Nat.succ_ne_zero i)] at hlen
          simp only [List.count_append, List.length_cons]
          split_ifs at hpre ⊢ <;> omega
        · simp only [Prod.mk.injEq] at h
          obtain ⟨rfl, -, rfl⟩ := h
          exact ⟨[], rfl, Nat.zero_le _⟩

/-- Whatever is read as an IPv6 address has at least two colons. -/
theorem two_le_count_colon {s : Str} {x : Ipv6Addr} (h : parseIpv6 s = some x) :
    2 ≤ s.count ':' := by
  have hread : ∃ rest, readIpv6 s = some (x, rest) := by
    simp only [parseIpv6] at h
    split at h
    · rename_i y hy
      exact ⟨[], Option.some.inj h ▸ hy⟩
    · cases h
  obtain ⟨rest, hread⟩ := hread
  rcases hg : readGroups 8 0 s with ⟨head, b, rest'⟩
  obtain ⟨pre, rfl, hlen⟩ := length_readGroups_le hg
  rw [List.count_append]
  simp only [readIpv6, hg] at hread
  split_ifs at hread with h8
  · simp only [h8, if_true] at hlen
    omega
  · simp only [Option.bind_eq_bind, Option.bind_eq_some_iff] at hread
    obtain ⟨t, ht, t', ht', -⟩ := hread
    rw [readGiven_eq_some ht, readGiven_eq_some ht']
    simp only [List.count_cons_self]
    omega

end Pfsnitch.Lib
