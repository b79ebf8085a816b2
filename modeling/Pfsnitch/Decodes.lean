import Pfsnitch.Names
import Pfsnitch.Lib.DnsWire

/-!
# Pfsnitch.Decodes

What the DNS reader makes of well-formed responses.

A name is read where it stands, however it is written, and the reader goes on behind it
(`readName_of_nameAt`); so questions and records are read one after the other, and of a
response remain the first name and the addresses (`dns_decodes`).
-/

namespace Pfsnitch

open Lib Lib.Dns

variable {b : List UInt8} {off hops next : Nat} {ls : List Label}

/-! ## bytes in place -/

/-- A byte of what stands at an offset. -/
theorem getElem?_of_prefix {x : List UInt8} (h : x <+: b.drop off) {i : Nat} (hi : i < x.length) :
    b[off + i]? = x[i]? := by
  rw [← List.getElem?_drop]
  obtain ⟨rest, hrest⟩ := h
  rw [← hrest, List.getElem?_append_left hi]

theorem byteAt_of_prefix {x : List UInt8} (h : x <+: b.drop off) {i : Nat} (hi : i < x.length) :
    byteAt b (off + i) = byteAt x i := by
  rw [byteAt, byteAt, List.getD_eq_getElem?_getD, List.getD_eq_getElem?_getD,
    getElem?_of_prefix h hi]

/-- What stands at an offset fits. -/
theorem le_length_of_prefix {x : List UInt8} (h : x <+: b.drop off) (hx : x ≠ []) :
    off + x.length ≤ b.length := by
  have hle := h.length_le
  have hpos := List.length_pos_iff.mpr hx
  rw [List.length_drop] at hle
  omega

theorem beAt_of_prefix {n : Nat} (h : groupOctets n <+: b.drop off) (hn : n < 65536) :
    beAt b off = n := by
  have h0 := byteAt_of_prefix h (i := 0) (Nat.zero_lt_two)
  have h1 := byteAt_of_prefix h (i := 1) (Nat.one_lt_two)
  rw [Nat.add_zero] at h0
  rw [beAt, toNat_beU16, h0, h1]
  change (UInt8.ofNat (n / 256)).toNat * 256 + (UInt8.ofNat (n % 256)).toNat = n
  rw [toNat_ofNat_uint8 (by omega), toNat_ofNat_uint8 (by omega)]
  omega

/-! ## names -/

/-- The labels of a name as text. -/
theorem dotted_bytes (ls : List Label) : dotted (ls.map Label.bytes) = joinDots ls := by
  induction ls with
  | nil => rfl
  | cons l ls ih =>
      have htext : utf8Lossy l.bytes = l.text := utf8Lossy_ascii l.ascii
      cases ls with
      | nil => simp [dotted, joinDots, List.intercalate, htext]
      | cons l' ls =>
          have hstep : joinDots (l :: l' :: ls) = l.text ++ '.' :: joinDots (l' :: ls) := by
            simp [joinDots, List.intercalate]
          rw [hstep, ← ih, ← htext]
          rfl

/-- The loop reads a name where it stands. -/
theorem readNameLoop_of_nameAt (h : NameAt b off ls hops next) {fuel k : Nat} (out : Str)
    (after : Option Nat) (hfuel : ls.length + hops < fuel) (hk : k + hops ≤ 16) :
    readNameLoop b fuel out off after k = some (extend out (ls.map Label.bytes), after.getD next) := by
  induction h generalizing fuel k out after with
  | @root off h =>
      obtain ⟨fuel, rfl⟩ := Nat.exists_eq_succ_of_ne_zero (by omega : fuel ≠ 0)
      have h0 := getElem?_of_prefix h (i := 0) (by decide)
      rw [Nat.add_zero] at h0
      rw [readNameLoop, h0]
      rfl
  | @label off hops next l ls h rest ih =>
      rw [List.length_cons] at hfuel
      obtain ⟨fuel, rfl⟩ := Nat.exists_eq_succ_of_ne_zero (by omega : fuel ≠ 0)
      have hpos := List.length_pos_iff.mpr l.nonempty
      have hshort := l.short
      have hn : (UInt8.ofNat l.bytes.length).toNat = l.bytes.length := toNat_ofNat_uint8 (by omega)
      have h0 : b[off]? = some (UInt8.ofNat l.bytes.length) :=
        getElem?_of_prefix h (i := 0) (Nat.succ_pos _)
      have hne : ¬ UInt8.ofNat l.bytes.length = 0 := by
        intro heq
        rw [heq] at hn
        rw [← hn] at hpos
        exact absurd hpos (by decide)
      have hwire : off + l.wire.length = off + 1 + l.bytes.length := by
        rw [Label.wire, List.length_cons]
        omega
      have hfits := le_length_of_prefix h (List.cons_ne_nil _ _)
      have hbytes : (b.drop (off + 1)).take l.bytes.length = l.bytes := by
        have htail := h.drop 1
        rw [List.drop_drop] at htail
        exact List.prefix_iff_eq_take.mp htail |>.symm
      rw [hwire] at hfits ih
      rw [readNameLoop, h0]
      dsimp only
      rw [hn, if_neg (by omega), if_neg hne, if_neg (by omega), hbytes, ih _ _ (by omega) hk,
        extend_append l.nonempty]
      rfl
  | @pointer off ptr hops next ls hptr h rest ih =>
      obtain ⟨fuel, rfl⟩ := Nat.exists_eq_succ_of_ne_zero (by omega : fuel ≠ 0)
      have h0 : b[off]? = some (UInt8.ofNat (192 + ptr / 256)) :=
        getElem?_of_prefix h (i := 0) Nat.zero_lt_two
      have h1 : b[off + 1]? = some (UInt8.ofNat (ptr % 256)) :=
        getElem?_of_prefix h (i := 1) Nat.one_lt_two
      have hhi : (UInt8.ofNat (192 + ptr / 256)).toNat = 192 + ptr / 256 :=
        toNat_ofNat_uint8 (by omega)
      have hlo : (UInt8.ofNat (ptr % 256)).toNat = ptr % 256 := toNat_ofNat_uint8 (by omega)
      have hto : (192 + ptr / 256) % 64 * 256 + ptr % 256 = ptr := by omega
      have hlt := rest.lt
      rw [readNameLoop, h0]
      dsimp only
      rw [hhi, if_pos (by omega), h1]
      dsimp only
      rw [hlo, hto, if_neg (by omega), ih _ _ (by omega) (by omega)]
      cases after <;> rfl

/-- A name is read where it stands, and the reader goes on behind it. -/
theorem readName_of_nameAt (h : NameAt b off ls hops next) (hhops : hops ≤ 16) :
    readName b off = some (joinDots ls, next) := by
  have hle := h.length_le
  have hmul : hops * b.length ≤ 16 * b.length := Nat.mul_le_mul_right _ hhops
  have hfuel : ls.length + hops < 17 * (b.length + 2) := by
    have hall : 17 * b.length = 16 * b.length + b.length := by omega
    omega
  rw [readName, readNameLoop_of_nameAt h [] none hfuel (by omega), ← dotted_bytes]
  cases ls <;> rfl

/-! ## questions and records -/

section

variable {st st' : Builder}

/-- What stands behind a message that has grown. -/
theorem prefix_drop_of_append {x : List UInt8} (hb : st.bytes ++ x <+: b) :
    x <+: b.drop st.bytes.length := by
  have hdrop := hb.drop st.bytes.length
  rwa [List.drop_left] at hdrop

/-- A name that has been written is read. -/
theorem name_read {f : NameForm} (h : st.Holds) (hst : st.name f = some st') :
    st'.Holds ∧ st.bytes <+: st'.bytes ∧ ∃ tail, (st.places = [] → tail = []) ∧
      ∀ b, st'.bytes <+: b →
        readName b st.bytes.length = some (joinDots (f.labels ++ tail), st'.bytes.length) := by
  obtain ⟨hholds, ⟨ext, hext, -⟩, tail, hops, hhops, htail, hname⟩ := Builder.name_spec h hst
  refine ⟨hholds, ⟨ext, hext.symm⟩, tail, htail, fun b hb => ?_⟩
  exact readName_of_nameAt (hname.mono hb) hhops

/-- A question is read up to its last four bytes. -/
theorem question_read {q : Question} (h : st.Holds) (hst : st.question q = some st') :
    st'.Holds ∧ st.bytes <+: st'.bytes ∧ ∃ tail, (st.places = [] → tail = []) ∧
      ∀ b, st'.bytes <+: b → ∃ next, next + 4 = st'.bytes.length ∧
        readName b st.bytes.length = some (joinDots (q.name.labels ++ tail), next) := by
  rw [Builder.question] at hst
  cases hname : st.name q.name with
  | none =>
      rw [hname] at hst
      cases hst
  | some st₁ =>
      rw [hname] at hst
      obtain rfl := Option.some.inj hst
      obtain ⟨hholds, hpre, tail, htail, hread⟩ := name_read h hname
      have hraw : st₁.bytes <+: (st₁.raw (groupOctets q.qtype.toNat ++
          groupOctets q.qclass.toNat)).bytes := List.prefix_append _ _
      refine ⟨hholds.raw _, hpre.trans hraw, tail, htail, fun b hb => ?_⟩
      refine ⟨st₁.bytes.length, ?_, hread b (hraw.trans hb)⟩
      rw [Builder.raw, List.length_append]
      rfl

theorem questions_read {qs : List Question} (h : st.Holds) (hst : st.questions qs = some st') :
    st'.Holds ∧ st.bytes <+: st'.bytes ∧ ∀ b, st'.bytes <+: b →
      skipQuestions b qs.length st.bytes.length = some st'.bytes.length := by
  induction qs generalizing st with
  | nil =>
      obtain rfl := Option.some.inj hst
      exact ⟨h, List.prefix_refl _, fun _ _ => rfl⟩
  | cons q qs ih =>
      rw [Builder.questions] at hst
      cases hq : st.question q with
      | none =>
          rw [hq] at hst
          cases hst
      | some st₁ =>
          rw [hq] at hst
          obtain ⟨hholds₁, hpre₁, tail, -, hread⟩ := question_read h hq
          obtain ⟨hholds, hpre, hskip⟩ := ih hholds₁ hst
          refine ⟨hholds, hpre₁.trans hpre, fun b hb => ?_⟩
          obtain ⟨next, hnext, hname⟩ := hread b (hpre.trans hb)
          rw [List.length_cons, skipQuestions, hname]
          dsimp only
          rw [hnext]
          exact hskip b hb

/-- The data of a record is read as the address it is. -/
theorem recordAddr_read {d : RecordData} (hst : st.pieces d.pieces = some st')
    (hb : st'.bytes <+: b) :
    recordAddr b d.rtype.toNat (piecesSize d.pieces) st.bytes.length = d.addr := by
  cases d with
  | a addr =>
      obtain rfl := Option.some.inj hst
      have hpre := prefix_drop_of_append hb
      have hlen : addr.octets.length = 4 := rfl
      have h0 := byteAt_of_prefix hpre (i := 0) (by omega)
      have h1 := byteAt_of_prefix hpre (i := 1) (by omega)
      have h2 := byteAt_of_prefix hpre (i := 2) (by omega)
      have h3 := byteAt_of_prefix hpre (i := 3) (by omega)
      rw [Nat.add_zero] at h0
      rw [recordAddr, if_pos ⟨rfl, rfl⟩, h0, h1, h2, h3]
      rfl
  | aaaa addr =>
      obtain rfl := Option.some.inj hst
      have hpre := prefix_drop_of_append hb
      have hsize : piecesSize (RecordData.aaaa addr).pieces = 16 := addr.size
      have htake : (b.drop st.bytes.length).take 16 = addr.octets := by
        rw [← addr.size]
        exact (List.prefix_iff_eq_take.mp hpre).symm
      rw [recordAddr, hsize, if_neg fun h => absurd h.2 (by decide), if_pos ⟨rfl, rfl⟩,
        ipv6At_eq htake]
      rfl
  | other rtype hne pieces =>
      have h1 : rtype.toNat ≠ 1 := fun h => hne.1 (UInt16.toNat_inj.mp h)
      have h28 : rtype.toNat ≠ 28 := fun h => hne.2 (UInt16.toNat_inj.mp h)
      exact (if_neg fun h => h1 h.1).trans (if_neg fun h => h28 h.1)

/-- A record adds the address it holds. -/
theorem record_read {r : Record} (h : st.Holds) (hst : st.record r = some st') :
    st'.Holds ∧ st.bytes <+: st'.bytes ∧ ∀ b n, st'.bytes <+: b →
      readAnswers b (n + 1) st.bytes.length =
        (readAnswers b n st'.bytes.length).map fun ips => r.data.addr.toList ++ ips := by
  rw [Builder.record] at hst
  cases hname : st.name r.name with
  | none =>
      rw [hname] at hst
      cases hst
  | some st₁ =>
      rw [hname] at hst
      dsimp only at hst
      split at hst
      · rename_i hsize
        obtain ⟨hholds₁, hpre₁, tail, -, hread⟩ := name_read h hname
        have hholds₂ := hholds₁.raw (Builder.recordHead r)
        obtain ⟨hholds, ext, hext, hlen⟩ := Builder.pieces_spec hholds₂ hst
        have hpre : st₁.bytes <+: st'.bytes := by
          rw [hext]
          exact (List.prefix_append _ _).trans (List.prefix_append _ _)
        refine ⟨hholds, hpre₁.trans hpre, fun b n hb => ?_⟩
        have haddr := recordAddr_read hst hb
        have hall : Builder.recordHead r ++ ext <+: b.drop st₁.bytes.length := by
          apply prefix_drop_of_append
          rw [← List.append_assoc]
          exact hext ▸ hb
        have htype : beAt b st₁.bytes.length = r.data.rtype.toNat :=
          beAt_of_prefix (List.IsPrefix.trans ⟨_, rfl⟩ hall) r.data.rtype.toNat_lt
        have hrdlen : beAt b (st₁.bytes.length + 8) = piecesSize r.data.pieces := by
          have hdrop := hall.drop 8
          rw [List.drop_drop] at hdrop
          exact beAt_of_prefix (List.IsPrefix.trans ⟨_, rfl⟩ hdrop) hsize
        have hhead : (st₁.raw (Builder.recordHead r)).bytes.length = st₁.bytes.length + 10 := by
          rw [Builder.raw, List.length_append]
          rfl
        have hend : st'.bytes.length = st₁.bytes.length + 10 + piecesSize r.data.pieces := by
          rw [hext, List.length_append, hhead, hlen]
        have hfits := hb.length_le
        rw [hhead] at haddr
        rw [readAnswers, hread b (hpre.trans hb)]
        dsimp only
        rw [if_neg (by omega), htype, hrdlen, if_neg (by omega), haddr, ← hend]
      · cases hst

theorem records_read {rs : List Record} (h : st.Holds) (hst : st.records rs = some st') :
    st.bytes <+: st'.bytes ∧ ∀ b, st'.bytes <+: b →
      readAnswers b rs.length st.bytes.length = some (rs.filterMap fun r => r.data.addr) := by
  induction rs generalizing st with
  | nil =>
      obtain rfl := Option.some.inj hst
      exact ⟨List.prefix_refl _, fun _ _ => rfl⟩
  | cons r rs ih =>
      rw [Builder.records] at hst
      cases hr : st.record r with
      | none =>
          rw [hr] at hst
          cases hst
      | some st₁ =>
          rw [hr] at hst
          obtain ⟨hholds₁, hpre₁, hread⟩ := record_read h hr
          obtain ⟨hpre, hrest⟩ := ih hholds₁ hst
          refine ⟨hpre₁.trans hpre, fun b hb => ?_⟩
          rw [List.length_cons, hread b rs.length (hpre.trans hb), hrest b hb, Option.map_some]
          cases haddr : r.data.addr <;> simp [haddr]

end

/-- **The DNS reader decodes every well-formed response.** -/
theorem dns_decodes {m : Response} (h : m.encode = some b) : parseResponse b =
    if m.addrs = [] then none else some (joinDots m.question.name.labels, m.addrs) := by
  obtain ⟨hqd, han, st₁, st₂, st₃, hq, hqs, hrs, rfl⟩ := Response.encode_cases h
  have hholds₀ : Builder.Holds ⟨m.head, []⟩ := fun p hp => absurd hp List.not_mem_nil
  obtain ⟨hholds₁, hpre₁, tail, htail, hread⟩ := question_read hholds₀ hq
  obtain ⟨hholds₂, hpre₂, hskip⟩ := questions_read hholds₁ hqs
  obtain ⟨hpre₃, hanswers⟩ := records_read hholds₂ hrs
  have hb₃ : st₃.bytes <+: st₃.bytes ++ m.rest := List.prefix_append _ _
  have hb₂ := hpre₃.trans hb₃
  have hb₁ := hpre₂.trans hb₂
  have hb₀ : m.head <+: st₃.bytes ++ m.rest := hpre₁.trans hb₁
  generalize st₃.bytes ++ m.rest = b at hb₀ hb₁ hb₂ hb₃
  obtain ⟨next, hnext, hname⟩ := hread b hb₁
  rw [htail rfl, List.append_nil] at hname
  -- the header
  have hlen : 12 ≤ b.length := hb₀.length_le
  have hflags : beAt b 2 = 0x8000 + m.flags.toNat % 0x8000 :=
    beAt_of_prefix (List.IsPrefix.trans ⟨_, rfl⟩ (hb₀.drop 2)) (by omega)
  have hqdcount : beAt b 4 = m.questions.length + 1 :=
    beAt_of_prefix (List.IsPrefix.trans ⟨_, rfl⟩ (hb₀.drop 4)) hqd
  have hancount : beAt b 6 = m.answers.length :=
    beAt_of_prefix (List.IsPrefix.trans ⟨_, rfl⟩ (hb₀.drop 6)) han
  rw [parseResponse, if_neg (by omega), if_neg (by omega)]
  dsimp only
  rw [hqdcount, hancount]
  by_cases hnil : m.answers.length = 0
  · have haddrs : m.addrs = [] := by
      rw [Response.addrs, List.length_eq_zero_iff.mp hnil]
      rfl
    rw [if_pos (.inr hnil), if_pos haddrs]
  · have hname : readName b 12 = some (joinDots m.question.name.labels, next) := hname
    rw [if_neg (by omega), hname]
    dsimp only
    rw [hnext, Nat.add_sub_cancel, hskip b hb₂]
    dsimp only
    have haddrs : readAnswers b m.answers.length st₂.bytes.length = some m.addrs := hanswers b hb₃
    rw [haddrs]
    cases m.addrs with
    | nil => rfl
    | cons ip ips => rfl

/-- An alias of www.com and its address, under names that point to earlier ones. -/
def aliased : Response :=
  let www : Label := ⟨[119, 119, 119], by simp, by simp, by simp, by simp⟩
  let cdn : Label := ⟨[99, 100, 110], by simp, by simp, by simp, by simp⟩
  let com : Label := ⟨[99, 111, 109], by simp, by simp, by simp, by simp⟩
  let cname : Record := ⟨⟨[], some 12⟩, 1, 60, .other 5 (by decide) [.name ⟨[cdn], some 16⟩]⟩
  let address : Record := ⟨⟨[], some 37⟩, 1, 60, .a ⟨1, 2, 3, 4⟩⟩
  ⟨7, 0x0180, ⟨⟨[www, com], none⟩, 1, 1⟩, [], [cname, address], 0, 0, []⟩

theorem dns_decodes_aliased : ∃ b, aliased.encode = some b ∧
    parseResponse b = some ("www.com".toList, [.v4 ⟨1, 2, 3, 4⟩]) := by
  obtain ⟨b, hb⟩ := Option.isSome_iff_exists.mp (by decide : aliased.encode.isSome = true)
  exact ⟨b, hb, (dns_decodes hb).trans (by decide)⟩

end Pfsnitch
