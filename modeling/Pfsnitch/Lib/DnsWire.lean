import Pfsnitch.Lib.IpAddr
import Mathlib.Data.List.Infix

/-!
# Pfsnitch.Lib.DnsWire

The wire format of DNS messages: what it is for a name to stand at a place of a message
(`NameAt`), and a reference encoder for responses.

A name is written with its labels alone, or with some labels and a pointer to a place
where an earlier name, or the end of one, stands.  The encoder keeps these places, so a
pointer can only lead to a name (`Builder.Holds`), and `name_spec` says what a name that
has been written reads as.
-/

namespace Pfsnitch.Lib

namespace Dns

/-! ## names -/

/-- A label: 1 to 63 ASCII bytes, none of them a dot. -/
structure Label where
  bytes : List UInt8
  nonempty : bytes ≠ []
  short : bytes.length ≤ 63
  ascii : ∀ b ∈ bytes, b.toNat < 128
  noDot : ∀ b ∈ bytes, b.toNat ≠ 46

def Label.text (l : Label) : Str := l.bytes.map fun b => Char.ofNat b.toNat

/-- The labels joined with dots. -/
def joinDots (ls : List Label) : Str := ['.'].intercalate (ls.map Label.text)

/-- A label with its length. -/
def Label.wire (l : Label) : List UInt8 := UInt8.ofNat l.bytes.length :: l.bytes

def labelsWire (ls : List Label) : List UInt8 := ls.flatMap Label.wire

/-- A pointer to an offset below 2^14. -/
def pointerWire (ptr : Nat) : List UInt8 := [UInt8.ofNat (192 + ptr / 256), UInt8.ofNat (ptr % 256)]

/-- `NameAt b off ls hops next`: at `off` stands a name with labels `ls`, for which `hops`
pointers have to be followed; what comes after it starts at `next`. -/
inductive NameAt (b : List UInt8) : Nat → List Label → Nat → Nat → Prop
  | root {off : Nat} (h : [0] <+: b.drop off) : NameAt b off [] 0 (off + 1)
  | label {off hops next : Nat} {l : Label} {ls : List Label} (h : l.wire <+: b.drop off)
      (rest : NameAt b (off + l.wire.length) ls hops next) : NameAt b off (l :: ls) hops next
  | pointer {off ptr hops next : Nat} {ls : List Label} (hptr : ptr < 16384)
      (h : pointerWire ptr <+: b.drop off) (rest : NameAt b ptr ls hops next) :
      NameAt b off ls (hops + 1) (off + 2)

variable {b c : List UInt8} {off hops next : Nat} {ls tail : List Label}

/-- A name stays where it is when the message grows. -/
theorem NameAt.mono (h : NameAt b off ls hops next) (hbc : b <+: c) : NameAt c off ls hops next := by
  induction h with
  | root h => exact .root (h.trans (hbc.drop _))
  | label h _ ih => exact .label (h.trans (hbc.drop _)) ih
  | pointer hptr h _ ih => exact .pointer hptr (h.trans (hbc.drop _)) ih

/-- A name starts inside the message. -/
theorem NameAt.lt (h : NameAt b off ls hops next) : off < b.length := by
  have hlen : ∀ x : List UInt8, x ≠ [] → x <+: b.drop off → off < b.length := by
    intro x hx hpre
    have hle := hpre.length_le
    have hpos := List.length_pos_iff.mpr hx
    rw [List.length_drop] at hle
    omega
  cases h with
  | root h => exact hlen _ (List.cons_ne_nil _ _) h
  | label h _ => exact hlen _ (List.cons_ne_nil _ _) h
  | pointer _ h _ => exact hlen _ (List.cons_ne_nil _ _) h

/-- A name has no more labels than its pointers can lead to. -/
theorem NameAt.length_le (h : NameAt b off ls hops next) :
    ls.length ≤ hops * b.length + (b.length - off) := by
  induction h with
  | root => simp
  | @label off hops next l ls h rest ih =>
      have hlt := rest.lt
      have hpos : 0 < l.wire.length := Nat.succ_pos _
      rw [List.length_cons]
      omega
  | @pointer off ptr hops next ls _ _ rest ih =>
      rw [Nat.add_mul, Nat.one_mul]
      omega

/-! ## places -/

/-- A place where a name, or the end of one, stands. -/
structure Place where
  off : Nat
  labels : List Label
  hops : Nat

/-- A message that is being written, and the names in it. -/
structure Builder where
  bytes : List UInt8
  places : List Place

/-- How a name is written: some labels, and where the rest stands. -/
structure NameForm where
  labels : List Label
  pointer : Option Nat

def NameForm.size (f : NameForm) : Nat :=
  (labelsWire f.labels).length + if f.pointer.isSome then 2 else 1

/-- The places of a name and of its ends, when labels `ls` stand at `off` and are followed by
a name `tail`. -/
def placesFrom (off : Nat) (ls tail : List Label) (hops : Nat) : List Place :=
  match ls with
  | [] => [⟨off, tail, hops⟩]
  | l :: ls => ⟨off, l :: (ls ++ tail), hops⟩ :: placesFrom (off + l.wire.length) ls tail hops

namespace Builder

/-- Bytes that are no names. -/
def raw (st : Builder) (bytes : List UInt8) : Builder := { st with bytes := st.bytes ++ bytes }

/-- A name.  A pointer must lead to an earlier name, below 2^14, and be the 16th at most. -/
def name (st : Builder) (f : NameForm) : Option Builder :=
  match f.pointer with
  | none => some
    { bytes := st.bytes ++ (labelsWire f.labels ++ [0])
      places := st.places ++ placesFrom st.bytes.length f.labels [] 0 }
  | some ptr =>
    match st.places.find? fun p => p.off = ptr with
    | some p =>
      if ptr < 16384 ∧ p.hops < 16 then some
        { bytes := st.bytes ++ (labelsWire f.labels ++ pointerWire ptr)
          places := st.places ++ placesFrom st.bytes.length f.labels p.labels (p.hops + 1) }
      else none
    | none => none

/-- The places are where the names stand. -/
def Holds (st : Builder) : Prop :=
  ∀ p ∈ st.places, p.hops ≤ 16 ∧ ∃ next, NameAt st.bytes p.off p.labels p.hops next

end Builder

/-- Labels before a name make a longer one, and each of its ends is a name. -/
theorem nameAt_labels (ls : List Label) {pre : List UInt8}
    (h : NameAt b (pre.length + (labelsWire ls).length) tail hops next)
    (hb : pre ++ labelsWire ls <+: b) :
    NameAt b pre.length (ls ++ tail) hops next ∧
      ∀ p ∈ placesFrom pre.length ls tail hops, p.hops = hops ∧
        NameAt b p.off p.labels p.hops next := by
  induction ls generalizing pre with
  | nil =>
      refine ⟨h, fun p hp => ?_⟩
      obtain rfl := List.mem_singleton.mp hp
      exact ⟨rfl, h⟩
  | cons l ls ih =>
      have hwire : labelsWire (l :: ls) = l.wire ++ labelsWire ls := rfl
      rw [hwire] at h hb
      rw [List.length_append, ← Nat.add_assoc, ← List.length_append] at h
      rw [← List.append_assoc] at hb
      obtain ⟨hrest, hplaces⟩ := ih h hb
      have hl : l.wire <+: b.drop pre.length := by
        have hdrop := ((List.prefix_append _ _).trans hb).drop pre.length
        rwa [List.drop_left] at hdrop
      rw [List.length_append] at hrest hplaces
      have hname : NameAt b pre.length (l :: ls ++ tail) hops next := .label hl hrest
      refine ⟨hname, fun p hp => ?_⟩
      obtain rfl | hp := List.mem_cons.mp hp
      · exact ⟨rfl, hname⟩
      · exact hplaces p hp

theorem Builder.Holds.mono {st : Builder} (h : st.Holds) (hb : st.bytes <+: b) :
    ∀ p ∈ st.places, p.hops ≤ 16 ∧ ∃ next, NameAt b p.off p.labels p.hops next := by
  intro p hp
  obtain ⟨hhops, next, hname⟩ := h p hp
  exact ⟨hhops, next, hname.mono hb⟩

theorem Builder.Holds.raw {st : Builder} (h : st.Holds) (bytes : List UInt8) :
    (st.raw bytes).Holds :=
  h.mono (List.prefix_append _ _)

/-- Labels and what ends them, written behind a message. -/
theorem Builder.write_spec {st : Builder} (h : st.Holds) {labels : List Label} {last : List UInt8}
    (hhops : hops ≤ 16)
    (hlast : NameAt (st.bytes ++ (labelsWire labels ++ last))
      (st.bytes.length + (labelsWire labels).length) tail hops next) :
    Builder.Holds ⟨st.bytes ++ (labelsWire labels ++ last),
        st.places ++ placesFrom st.bytes.length labels tail hops⟩ ∧
      NameAt (st.bytes ++ (labelsWire labels ++ last)) st.bytes.length (labels ++ tail) hops next := by
  have hpre : st.bytes ++ labelsWire labels <+: st.bytes ++ (labelsWire labels ++ last) := by
    rw [← List.append_assoc]
    exact List.prefix_append _ _
  obtain ⟨hname, hplaces⟩ := nameAt_labels labels hlast hpre
  refine ⟨fun p hp => ?_, hname⟩
  obtain hp | hp := List.mem_append.mp hp
  · exact h.mono (List.prefix_append _ _) p hp
  · obtain ⟨heq, hat⟩ := hplaces p hp
    exact ⟨heq ▸ hhops, next, heq ▸ hat⟩

/-- What a name that has been written reads as. -/
theorem Builder.name_spec {st st' : Builder} {f : NameForm} (h : st.Holds)
    (hst : st.name f = some st') :
    st'.Holds ∧ (∃ ext, st'.bytes = st.bytes ++ ext ∧ ext.length = f.size) ∧
      ∃ tail hops, hops ≤ 16 ∧ (st.places = [] → tail = []) ∧
        NameAt st'.bytes st.bytes.length (f.labels ++ tail) hops st'.bytes.length := by
  have hdrop (last : List UInt8) : last <+: (st.bytes ++ (labelsWire f.labels ++ last)).drop
      (st.bytes.length + (labelsWire f.labels).length) := by
    rw [← List.append_assoc, ← List.length_append, List.drop_left]
  have hlen (last : List UInt8) : (st.bytes ++ (labelsWire f.labels ++ last)).length =
      st.bytes.length + (labelsWire f.labels).length + last.length := by
    rw [List.length_append, List.length_append, Nat.add_assoc]
  unfold Builder.name at hst
  cases hf : f.pointer with
  | none =>
      rw [hf] at hst
      obtain rfl := Option.some.inj hst
      have hroot := NameAt.root (hdrop [0])
      rw [show _ + 1 = _ from (hlen [0]).symm] at hroot
      obtain ⟨hholds, hname⟩ := write_spec h (Nat.zero_le 16) hroot
      exact ⟨hholds, ⟨_, rfl, by simp [NameForm.size, hf]⟩, [], 0, Nat.zero_le 16, fun _ => rfl, hname⟩
  | some ptr =>
      rw [hf] at hst
      dsimp only at hst
      cases hfind : st.places.find? fun p => p.off = ptr with
      | none =>
          rw [hfind] at hst
          cases hst
      | some p =>
          rw [hfind] at hst
          dsimp only at hst
          split at hst
          · rename_i hok
            obtain rfl := Option.some.inj hst
            have hmem := List.mem_of_find?_eq_some hfind
            have hoff : p.off = ptr := by simpa using List.find?_some hfind
            obtain ⟨-, nx, hat⟩ := h p hmem
            rw [hoff] at hat
            have hptr := NameAt.pointer hok.1 (hdrop (pointerWire ptr))
              (hat.mono (List.prefix_append _ _))
            rw [show _ + 2 = _ from (hlen (pointerWire ptr)).symm] at hptr
            obtain ⟨hholds, hname⟩ := write_spec h (by omega) hptr
            refine ⟨hholds, ⟨_, rfl, by simp [NameForm.size, hf, pointerWire]⟩, p.labels, p.hops + 1,
              by omega, fun hnil => ?_, hname⟩
            rw [hnil] at hmem
            cases hmem
          · cases hst

/-! ## responses -/

/-- A stretch of the data of a record: bytes, or a name. -/
inductive Piece where
  | raw (bytes : List UInt8)
  | name (f : NameForm)

def Piece.size : Piece → Nat
  | .raw bytes => bytes.length
  | .name f => f.size

def piecesSize (ps : List Piece) : Nat := (ps.map Piece.size).sum

/-- What a record holds: an address, or data of another type. -/
inductive RecordData where
  | a (addr : Ipv4Addr)
  | aaaa (addr : Ipv6Addr)
  | other (rtype : UInt16) (hne : rtype ≠ 1 ∧ rtype ≠ 28) (pieces : List Piece)

namespace RecordData

def rtype : RecordData → UInt16
  | .a _ => 1
  | .aaaa _ => 28
  | .other rtype _ _ => rtype

def pieces : RecordData → List Piece
  | .a addr => [.raw addr.octets]
  | .aaaa addr => [.raw addr.octets]
  | .other _ _ pieces => pieces

def addr : RecordData → Option IpAddr
  | .a addr => some (.v4 addr)
  | .aaaa addr => some (.v6 addr)
  | .other _ _ _ => none

end RecordData

structure Question where
  name : NameForm
  qtype : UInt16
  qclass : UInt16

structure Record where
  name : NameForm
  rclass : UInt16
  ttl : UInt32
  data : RecordData

/-- A response: a question and perhaps more, the answers, and the other two sections as they
are. -/
structure Response where
  id : UInt16
  flags : UInt16
  question : Question
  questions : List Question
  answers : List Record
  nscount : UInt16
  arcount : UInt16
  rest : List UInt8

/-- The addresses among the answers, in order. -/
def Response.addrs (m : Response) : List IpAddr := m.answers.filterMap fun r => r.data.addr

namespace Builder

def pieces (st : Builder) : List Piece → Option Builder
  | [] => some st
  | .raw bytes :: ps => (st.raw bytes).pieces ps
  | .name f :: ps =>
    match st.name f with
    | some st => st.pieces ps
    | none => none

def question (st : Builder) (q : Question) : Option Builder :=
  match st.name q.name with
  | some st => some (st.raw (groupOctets q.qtype.toNat ++ groupOctets q.qclass.toNat))
  | none => none

/-- Everything of a record between its name and its data. -/
def recordHead (r : Record) : List UInt8 :=
  groupOctets r.data.rtype.toNat ++ groupOctets r.rclass.toNat ++
    groupOctets (r.ttl.toNat / 65536) ++ groupOctets (r.ttl.toNat % 65536) ++
      groupOctets (piecesSize r.data.pieces)

def record (st : Builder) (r : Record) : Option Builder :=
  match st.name r.name with
  | some st =>
    if piecesSize r.data.pieces < 65536 then (st.raw (recordHead r)).pieces r.data.pieces else none
  | none => none

def questions (st : Builder) : List Question → Option Builder
  | [] => some st
  | q :: qs =>
    match st.question q with
    | some st => st.questions qs
    | none => none

def records (st : Builder) : List Record → Option Builder
  | [] => some st
  | r :: rs =>
    match st.record r with
    | some st => st.records rs
    | none => none

end Builder

/-- The header of a response. -/
def Response.head (m : Response) : List UInt8 :=
  groupOctets m.id.toNat ++ groupOctets (0x8000 + m.flags.toNat % 0x8000) ++
    groupOctets (m.questions.length + 1) ++ groupOctets m.answers.length ++
      groupOctets m.nscount.toNat ++ groupOctets m.arcount.toNat

/-- **The reference encoder.**  It fails when a pointer leads to no name, or when a count or
a size does not fit. -/
def Response.encode (m : Response) : Option (List UInt8) :=
  if m.questions.length + 1 < 65536 ∧ m.answers.length < 65536 then
    match Builder.questions ⟨m.head, []⟩ (m.question :: m.questions) with
    | some st =>
      match st.records m.answers with
      | some st => some (st.bytes ++ m.rest)
      | none => none
    | none => none
  else none

/-- The stages of an encoding. -/
theorem Response.encode_cases {m : Response} (h : m.encode = some b) :
    m.questions.length + 1 < 65536 ∧ m.answers.length < 65536 ∧ ∃ st₁ st₂ st₃,
      Builder.question ⟨m.head, []⟩ m.question = some st₁ ∧ st₁.questions m.questions = some st₂ ∧
        st₂.records m.answers = some st₃ ∧ b = st₃.bytes ++ m.rest := by
  rw [Response.encode] at h
  split at h
  · rename_i hcounts
    refine ⟨hcounts.1, hcounts.2, ?_⟩
    rw [Builder.questions] at h
    cases hq : Builder.question ⟨m.head, []⟩ m.question with
    | none =>
        rw [hq] at h
        cases h
    | some st₁ =>
        rw [hq] at h
        dsimp only at h
        cases hqs : st₁.questions m.questions with
        | none =>
            rw [hqs] at h
            cases h
        | some st₂ =>
            rw [hqs] at h
            dsimp only at h
            cases hrs : st₂.records m.answers with
            | none =>
                rw [hrs] at h
                cases h
            | some st₃ =>
                rw [hrs] at h
                exact ⟨st₁, st₂, st₃, rfl, hqs, hrs, (Option.some.inj h).symm⟩
  · cases h

/-- Pieces take the room they say. -/
theorem Builder.pieces_spec {ps : List Piece} {st st' : Builder} (h : st.Holds)
    (hst : st.pieces ps = some st') :
    st'.Holds ∧ ∃ ext, st'.bytes = st.bytes ++ ext ∧ ext.length = piecesSize ps := by
  induction ps generalizing st with
  | nil =>
      obtain rfl := Option.some.inj hst
      exact ⟨h, [], (List.append_nil _).symm, rfl⟩
  | cons p ps ih =>
      cases p with
      | raw bytes =>
          obtain ⟨hholds, ext, hext, hlen⟩ := ih (h.raw bytes) hst
          refine ⟨hholds, bytes ++ ext, ?_, ?_⟩
          · rw [hext, ← List.append_assoc]
            rfl
          · rw [List.length_append, hlen]
            rfl
      | name f =>
          rw [Builder.pieces] at hst
          cases hname : st.name f with
          | none =>
              rw [hname] at hst
              cases hst
          | some st₁ =>
              rw [hname] at hst
              obtain ⟨hholds₁, ⟨ext₁, hext₁, hlen₁⟩, -⟩ := name_spec h hname
              obtain ⟨hholds, ext, hext, hlen⟩ := ih hholds₁ hst
              refine ⟨hholds, ext₁ ++ ext, ?_, ?_⟩
              · rw [hext, hext₁, List.append_assoc]
              · rw [List.length_append, hlen₁, hlen]
                rfl

end Dns

end Pfsnitch.Lib
