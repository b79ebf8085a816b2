import Pfsnitch.Decodes
import Pfsnitch.Dns.Checked

/-!
# Pfsnitch.Delimits

Where a name ends in the stream.

What of a name stands in the stream itself is a run of labels with the root or a pointer
behind it (`NameBytes`).  It delimits itself (`NameBytes.eq_of_append`), so where the reader
goes on is settled by these bytes, whatever the pointer leads to (`readName_local`).
-/

namespace Pfsnitch

open Lib

variable {b : List UInt8} {off start next : Nat} {x : UInt8}

/-! ## the bytes of a name -/

/-- The bytes a name takes up in the stream.  The reader takes the length of a label as it
stands, also above 63. -/
inductive NameBytes : List UInt8 → Prop
  | root : NameBytes [0]
  | pointer {hi lo : UInt8} (htag : hi.toNat / 64 = 3) : NameBytes [hi, lo]
  | label {len : UInt8} {text rest : List UInt8} (htag : len.toNat / 64 ≠ 3) (hlen : len ≠ 0)
      (htext : text.length = len.toNat) (hrest : NameBytes rest) :
      NameBytes (len :: (text ++ rest))

theorem NameBytes.ne_nil {w : List UInt8} (h : NameBytes w) : w ≠ [] := by
  cases h <;> exact List.cons_ne_nil _ _

/-- A name delimits itself: a stream starts with at most one. -/
theorem NameBytes.eq_of_append {w w' tail tail' : List UInt8} (h : NameBytes w)
    (h' : NameBytes w') (heq : w ++ tail = w' ++ tail') : w = w' := by
  induction h generalizing w' with
  | root =>
      cases h' with
      | root => rfl
      | pointer htag =>
          obtain rfl := (List.cons.inj heq).1
          exact absurd htag (by decide)
      | label _ hlen => exact absurd (List.cons.inj heq).1.symm hlen
  | pointer htag =>
      cases h' with
      | root =>
          obtain rfl := (List.cons.inj heq).1
          exact absurd htag (by decide)
      | pointer htag' =>
          obtain ⟨rfl, hlo⟩ := List.cons.inj heq
          obtain ⟨rfl, -⟩ := List.cons.inj hlo
          rfl
      | label htag' =>
          obtain rfl := (List.cons.inj heq).1
          exact absurd htag htag'
  | label htag hlen htext hrest ih =>
      cases h' with
      | root => exact absurd (List.cons.inj heq).1 hlen
      | pointer htag' =>
          obtain rfl := (List.cons.inj heq).1
          exact absurd htag' htag
      | label htag' hlen' htext' hrest' =>
          rw [List.cons_append, List.cons_append, List.append_assoc, List.append_assoc] at heq
          obtain ⟨rfl, hrun⟩ := List.cons.inj heq
          -- both labels have the length that the first byte says
          obtain ⟨rfl, htails⟩ := List.append_inj hrun (htext.trans htext'.symm)
          rw [ih hrest' htails]

/-! ## what the reader leaves behind -/

theorem drop_eq_cons (h : b[off]? = some x) : b.drop off = x :: b.drop (off + 1) := by
  obtain ⟨hlt, rfl⟩ := List.getElem?_eq_some_iff.mp h
  exact List.drop_eq_getElem_cons hlt

/-- The loop goes on behind the bytes of the name at its first position; once a pointer has
been followed, where it was followed from is all that counts. -/
theorem readNameLoop_stream {fuel hops : Nat} {after : Option Nat} {out name : Str}
    (h : readNameLoop b fuel out off after hops = some (name, next)) :
    ∃ w, NameBytes w ∧ w <+: b.drop off ∧ next = after.getD (off + w.length) := by
  induction fuel generalizing out off after hops with
  | zero => cases h
  | succ fuel ih =>
      obtain ⟨hzero, hr⟩ | ⟨hi, lo, hhi, htag, hlo, h⟩ | ⟨len, hlen, htag, hpos, hfits, h⟩ :=
        readNameLoop_cases h
      · refine ⟨[0], .root, ?_, (Prod.mk.inj hr).2⟩
        rw [drop_eq_cons hzero]
        exact ⟨_, rfl⟩
      · obtain ⟨w, -, -, hnext⟩ := ih h
        refine ⟨[hi, lo], .pointer htag, ?_, ?_⟩
        · rw [drop_eq_cons hhi, drop_eq_cons hlo]
          exact ⟨_, rfl⟩
        · rw [hnext]
          cases after <;> rfl
      · obtain ⟨w, hw, ⟨tail, htail⟩, hnext⟩ := ih h
        have htext : ((b.drop (off + 1)).take len.toNat).length = len.toNat := by
          rw [List.length_take, List.length_drop]
          omega
        have hrest : b.drop (off + 1 + len.toNat) = (b.drop (off + 1)).drop len.toNat :=
          List.drop_drop.symm
        refine ⟨_, .label htag hpos htext hw, ⟨tail, ?_⟩, ?_⟩
        · rw [drop_eq_cons hlen, List.cons_append, List.append_assoc, htail, hrest,
            List.take_append_drop]
        · rw [hnext, List.length_cons, List.length_append, htext]
          congr 1
          omega

/-- What `read_name` has read, and where it goes on. -/
theorem readName_stream {name : Str} (h : readName b start = some (name, next)) :
    ∃ w, NameBytes w ∧ w <+: b.drop start ∧ next = start + w.length :=
  readNameLoop_stream h

/-- **Reading a name is total and local.** -/
theorem readName_local (b : List UInt8) (start : Nat) :
    ∃ r, readNameChecked b start = .ok r ∧
      ∀ name next, r = some (name, next) →
        start < next ∧ next ≤ b.length ∧ NameBytes ((b.drop start).take (next - start)) ∧
        ∀ b' name' next',
          (b'.drop start).take (next - start) = (b.drop start).take (next - start) →
          readNameChecked b' start = .ok (some (name', next')) → next' = next := by
  refine ⟨readName b start, readNameChecked_eq b start, fun name next hread => ?_⟩
  obtain ⟨w, hw, hpre, rfl⟩ := readName_stream hread
  have hpos := List.length_pos_iff.mpr hw.ne_nil
  have htake : (b.drop start).take w.length = w := (List.prefix_iff_eq_take.mp hpre).symm
  rw [Nat.add_sub_cancel_left, htake]
  refine ⟨by omega, le_length_of_prefix hpre hw.ne_nil, hw, fun b' name' next' hb' hread' => ?_⟩
  rw [readNameChecked_eq] at hread'
  obtain ⟨w', hw', ⟨tail', htail'⟩, rfl⟩ := readName_stream (Except.ok.inj hread')
  have hsplit := List.take_append_drop w.length (b'.drop start)
  rw [hb', ← htail'] at hsplit
  rw [hw.eq_of_append hw' hsplit]

/-- At offset 3 of this message stands `b` and a pointer to `a` at its start. -/
def compressed : List UInt8 := [1, 97, 0, 1, 98, 0xc0, 0]

theorem readName_local_compressed : ∃ r, readNameChecked compressed 3 = .ok r ∧
    r = some ("b.a".toList, 7) ∧ NameBytes [1, 98, 0xc0, 0] ∧
      ∀ b' name' next', (b'.drop 3).take 4 = [1, 98, 0xc0, 0] →
        readNameChecked b' 3 = .ok (some (name', next')) → next' = 7 := by
  obtain ⟨r, hr, hlocal⟩ := readName_local compressed 3
  have hread : readName compressed 3 = some ("b.a".toList, 7) := by decide
  have hr' : r = some ("b.a".toList, 7) := by
    rw [readNameChecked_eq, hread] at hr
    exact (Except.ok.inj hr).symm
  obtain ⟨-, -, hbytes, hsame⟩ := hlocal _ _ hr'
  exact ⟨r, hr, hr', hbytes, hsame⟩

end Pfsnitch
