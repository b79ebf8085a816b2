import Pfsnitch.Lib.Text

/-!
# Pfsnitch.Lib.Utf8

Bytes and text: `str::as_bytes`, `String::from_utf8_lossy` and `String::from_utf8`.

The lossy decoder follows the documented practice of replacing each maximal
ill-formed part by U+FFFD: a lead byte is taken together with as many of its
continuation bytes as are well formed.  The strict one accepts exactly the bytes
of a text (`decodeUtf8_eq_some`), and it accepts bytes around a newline exactly
when it accepts both sides (`decodeUtf8_newline`).
-/

namespace Pfsnitch.Lib

/-- `str::as_bytes`: the UTF-8 bytes of a text. -/
def utf8Bytes (s : Str) : List UInt8 := s.flatMap String.utf8EncodeChar

/-- U+FFFD. -/
def replacement : Char := Char.ofNat 0xFFFD

/-- Is `b` a continuation byte in the range `lo..hi`? -/
def contIn (lo hi : Nat) (b : UInt8) : Bool := lo ≤ b.toNat && b.toNat ≤ hi

/-- The range of the second byte after a lead byte of three or four, if the
lead byte is one. -/
def secondRange (b : UInt8) : Option (Nat × Nat × Nat) :=
  let n := b.toNat
  if n = 0xE0 then some (3, 0xA0, 0xBF)
  else if n = 0xED then some (3, 0x80, 0x9F)
  else if 0xE1 ≤ n ∧ n ≤ 0xEF then some (3, 0x80, 0xBF)
  else if n = 0xF0 then some (4, 0x90, 0xBF)
  else if n = 0xF4 then some (4, 0x80, 0x8F)
  else if 0xF1 ≤ n ∧ n ≤ 0xF3 then some (4, 0x80, 0xBF)
  else none

/-- The first character of a byte sequence and the number of bytes after the
lead byte that it takes. -/
def lossyHead (b : UInt8) (rest : List UInt8) : Char × Nat :=
  let n := b.toNat
  let low (x : UInt8) : Nat := x.toNat % 64
  if n < 0x80 then (Char.ofNat n, 0)
  else if 0xC2 ≤ n ∧ n ≤ 0xDF then
    match rest with
    | b₁ :: _ =>
      if contIn 0x80 0xBF b₁ then (Char.ofNat (n % 32 * 64 + low b₁), 1) else (replacement, 0)
    | [] => (replacement, 0)
  else
    match secondRange b, rest with
    | some (len, lo, hi), b₁ :: rest₁ =>
      if !contIn lo hi b₁ then (replacement, 0)
      else
        match rest₁ with
        | [] => (replacement, 1)
        | b₂ :: rest₂ =>
          if !contIn 0x80 0xBF b₂ then (replacement, 1)
          else if len = 3 then (Char.ofNat (n % 16 * 4096 + low b₁ * 64 + low b₂), 2)
          else
            match rest₂ with
            | [] => (replacement, 2)
            | b₃ :: _ =>
              if !contIn 0x80 0xBF b₃ then (replacement, 2)
              else (Char.ofNat (n % 8 * 262144 + low b₁ * 4096 + low b₂ * 64 + low b₃), 3)
    | _, _ => (replacement, 0)

/-- Decode, skipping the continuation bytes of the character just read. -/
def lossyFrom : Nat → List UInt8 → Str
  | _, [] => []
  | skip + 1, _ :: rest => lossyFrom skip rest
  | 0, b :: rest =>
    let (c, n) := lossyHead b rest
    c :: lossyFrom n rest

/-- `String::from_utf8_lossy`. -/
def utf8Lossy (bs : List UInt8) : Str := lossyFrom 0 bs

theorem utf8Lossy_ne_nil {bs : List UInt8} (h : bs ≠ []) : utf8Lossy bs ≠ [] := by
  cases bs with
  | nil => exact absurd rfl h
  | cons b rest => simp [utf8Lossy, lossyFrom]

/-- ASCII bytes are the characters they stand for. -/
theorem utf8Lossy_ascii {bs : List UInt8} (h : ∀ b ∈ bs, b.toNat < 128) :
    utf8Lossy bs = bs.map fun b => Char.ofNat b.toNat := by
  induction bs with
  | nil => rfl
  | cons b bs ih =>
      have hb : lossyHead b bs = (Char.ofNat b.toNat, 0) := if_pos (h b List.mem_cons_self)
      rw [utf8Lossy, lossyFrom, hb, List.map_cons]
      exact congrArg _ (ih fun x hx => h x (List.mem_cons_of_mem b hx))

/-! ## encodings read back -/

theorem toNat_ofNat_uint8 {n : Nat} (h : n < 256) : (UInt8.ofNat n).toNat = n := by
  rw [UInt8.toNat_ofNat']
  omega

/-- What a continuation byte of an encoding holds. -/
theorem contByte (n : Nat) : (UInt8.ofNat (n % 0x40 + 0x80)).toNat = n % 64 + 128 ∧
    contIn 0x80 0xBF (UInt8.ofNat (n % 0x40 + 0x80)) = true := by
  have hb : (UInt8.ofNat (n % 0x40 + 0x80)).toNat = n % 64 + 128 := toNat_ofNat_uint8 (by omega)
  refine ⟨hb, ?_⟩
  simp only [contIn, hb, Bool.and_eq_true, decide_eq_true_eq]
  omega

/-- The first character of an encoding is the encoded one. -/
theorem lossyHead_encode (c : Char) : ∃ b bs, String.utf8EncodeChar c = b :: bs ∧
    ∀ rest, lossyHead b (bs ++ rest) = (c, bs.length) := by
  have hv : c.val.toNat < 0xD800 ∨ 0xDFFF < c.val.toNat ∧ c.val.toNat < 0x110000 := c.valid
  have hc : Char.ofNat c.val.toNat = c := Char.ofNat_toNat c
  unfold String.utf8EncodeChar
  simp only
  generalize c.val.toNat = n at hv hc
  split
  · refine ⟨_, _, rfl, fun rest => ?_⟩
    have hb : (UInt8.ofNat n).toNat = n := toNat_ofNat_uint8 (by omega)
    simp only [lossyHead, hb]
    rw [if_pos (by omega), hc]
    rfl
  · split
    · refine ⟨_, _, rfl, fun rest => ?_⟩
      have hb : (UInt8.ofNat (n / 64 % 0x20 + 0xc0)).toNat = n / 64 % 32 + 192 :=
        toNat_ofNat_uint8 (by omega)
      obtain ⟨hb₁, hcont₁⟩ := contByte n
      have hval : (n / 64 % 32 + 192) % 32 * 64 + (n % 64 + 128) % 64 = n := by omega
      simp only [lossyHead, hb, hb₁, List.cons_append, hcont₁, if_true]
      rw [if_neg (by omega), if_pos (by omega), hval, hc]
      rfl
    · split
      · refine ⟨_, _, rfl, fun rest => ?_⟩
        have hb : (UInt8.ofNat (n / 4096 % 0x10 + 0xe0)).toNat = n / 4096 % 16 + 224 :=
          toNat_ofNat_uint8 (by omega)
        obtain ⟨hb₁, -⟩ := contByte (n / 64)
        obtain ⟨hb₂, hcont₂⟩ := contByte n
        have hsecond : ∃ lo hi, secondRange (UInt8.ofNat (n / 4096 % 0x10 + 0xe0)) =
            some (3, lo, hi) ∧ contIn lo hi (UInt8.ofNat (n / 64 % 0x40 + 0x80)) = true := by
          simp only [secondRange, hb, contIn, hb₁]
          split
          · exact ⟨_, _, rfl, by simp; omega⟩
          · split
            · exact ⟨_, _, rfl, by simp; omega⟩
            · rw [if_pos (by omega)]
              exact ⟨_, _, rfl, by simp; omega⟩
        obtain ⟨lo, hi, hrange, hcont₁⟩ := hsecond
        have hval : (n / 4096 % 16 + 224) % 16 * 4096 + (n / 64 % 64 + 128) % 64 * 64 +
            (n % 64 + 128) % 64 = n := by omega
        simp only [lossyHead, hb, hb₁, hb₂, List.cons_append, hrange, hcont₁, hcont₂,
          Bool.not_true, Bool.false_eq_true, if_false, if_true]
        rw [if_neg (by omega), if_neg (by omega), hval, hc]
        rfl
      · refine ⟨_, _, rfl, fun rest => ?_⟩
        have hb : (UInt8.ofNat (n / 262144 % 0x08 + 0xf0)).toNat = n / 262144 % 8 + 240 :=
          toNat_ofNat_uint8 (by omega)
        obtain ⟨hb₁, -⟩ := contByte (n / 4096)
        obtain ⟨hb₂, hcont₂⟩ := contByte (n / 64)
        obtain ⟨hb₃, hcont₃⟩ := contByte n
        have hsecond : ∃ lo hi, secondRange (UInt8.ofNat (n / 262144 % 0x08 + 0xf0)) =
            some (4, lo, hi) ∧ contIn lo hi (UInt8.ofNat (n / 4096 % 0x40 + 0x80)) = true := by
          simp only [secondRange, hb, contIn, hb₁]
          rw [if_neg (by omega), if_neg (by omega), if_neg (by omega)]
          split
          · exact ⟨_, _, rfl, by simp; omega⟩
          · split
            · exact ⟨_, _, rfl, by simp; omega⟩
            · rw [if_pos (by omega)]
              exact ⟨_, _, rfl, by simp; omega⟩
        obtain ⟨lo, hi, hrange, hcont₁⟩ := hsecond
        have hval : (n / 262144 % 8 + 240) % 8 * 262144 + (n / 4096 % 64 + 128) % 64 * 4096 +
            (n / 64 % 64 + 128) % 64 * 64 + (n % 64 + 128) % 64 = n := by omega
        simp only [lossyHead, hb, hb₁, hb₂, hb₃, List.cons_append, hrange, hcont₁, hcont₂, hcont₃,
          Bool.not_true, Bool.false_eq_true, if_false, Nat.reduceEqDiff]
        rw [if_neg (by omega), if_neg (by omega), hval, hc]
        rfl

theorem lossyFrom_append (bs rest : List UInt8) : lossyFrom bs.length (bs ++ rest) = utf8Lossy rest := by
  induction bs with
  | nil => rfl
  | cons b bs ih => exact ih

/-- The encoding of a text is read back, whatever follows. -/
theorem utf8Lossy_append (s : Str) (rest : List UInt8) :
    utf8Lossy (utf8Bytes s ++ rest) = s ++ utf8Lossy rest := by
  induction s with
  | nil => rfl
  | cons c s ih =>
      obtain ⟨b, bs, hbs, hhead⟩ := lossyHead_encode c
      have hcons : utf8Bytes (c :: s) ++ rest = b :: (bs ++ (utf8Bytes s ++ rest)) := by
        simp [utf8Bytes, hbs]
      rw [hcons, utf8Lossy, lossyFrom, hhead]
      simp only [lossyFrom_append, ih]
      rfl

theorem utf8Bytes_append (s t : Str) : utf8Bytes (s ++ t) = utf8Bytes s ++ utf8Bytes t :=
  List.flatMap_append

theorem utf8Lossy_utf8Bytes (s : Str) : utf8Lossy (utf8Bytes s) = s := by
  have h := utf8Lossy_append s []
  rwa [List.append_nil, show utf8Lossy [] = [] from rfl, List.append_nil] at h

example : utf8Lossy (utf8Bytes "/usr/é€😀".toList) = "/usr/é€😀".toList := by decide

example : utf8Lossy [0x61, 0xE2, 0x82, 0x62, 0xFF] = "a\uFFFDb\uFFFD".toList := by decide

/-! ## strict decoding -/

/-- `String::from_utf8`: the text whose bytes these are. -/
def decodeUtf8 (bs : List UInt8) : Option Str :=
  if utf8Bytes (utf8Lossy bs) = bs then some (utf8Lossy bs) else none

theorem decodeUtf8_eq_some {bs : List UInt8} {s : Str} :
    decodeUtf8 bs = some s ↔ bs = utf8Bytes s := by
  unfold decodeUtf8
  constructor
  · intro h
    split at h
    · rename_i hbs
      rw [← Option.some.inj h, hbs]
    · cases h
  · rintro rfl
    rw [utf8Lossy_utf8Bytes, if_pos rfl]

theorem decodeUtf8_utf8Bytes (s : Str) : decodeUtf8 (utf8Bytes s) = some s :=
  decodeUtf8_eq_some.mpr rfl

/-- An encoding is a byte that is no continuation byte, and continuation bytes. -/
theorem encode_shape (c : Char) : ∃ b bs, String.utf8EncodeChar c = b :: bs ∧
    contIn 0x80 0xBF b = false ∧ ∀ x ∈ bs, contIn 0x80 0xBF x = true := by
  have hv : c.val.toNat < 0xD800 ∨ 0xDFFF < c.val.toNat ∧ c.val.toNat < 0x110000 := c.valid
  have hlead {n : Nat} (hn : n < 256) (hlead : n < 0x80 ∨ 0xBF < n) :
      contIn 0x80 0xBF (UInt8.ofNat n) = false := by
    simp only [contIn, toNat_ofNat_uint8 hn, Bool.and_eq_false_iff, decide_eq_false_iff_not]
    omega
  unfold String.utf8EncodeChar
  simp only
  generalize c.val.toNat = n at hv
  split
  · exact ⟨_, _, rfl, hlead (by omega) (by omega), by simp⟩
  · split
    · exact ⟨_, _, rfl, hlead (by omega) (by omega),
        List.forall_mem_singleton.mpr (contByte n).2⟩
    · split
      · exact ⟨_, _, rfl, hlead (by omega) (by omega), List.forall_mem_cons.mpr
          ⟨(contByte (n / 64)).2, List.forall_mem_singleton.mpr (contByte n).2⟩⟩
      · exact ⟨_, _, rfl, hlead (by omega) (by omega), List.forall_mem_cons.mpr
          ⟨(contByte (n / 4096)).2, List.forall_mem_cons.mpr
            ⟨(contByte (n / 64)).2, List.forall_mem_singleton.mpr (contByte n).2⟩⟩⟩

/-- The bytes of a text are cut between two characters where no continuation byte
follows. -/
theorem utf8Bytes_eq_append {s : Str} {a b : List UInt8} (h : utf8Bytes s = a ++ b)
    (hb : ∀ x ∈ b.head?, contIn 0x80 0xBF x = false) :
    ∃ t u, s = t ++ u ∧ a = utf8Bytes t ∧ b = utf8Bytes u := by
  induction s generalizing a with
  | nil =>
      obtain ⟨rfl, rfl⟩ := List.append_eq_nil_iff.mp h.symm
      exact ⟨[], [], rfl, rfl, rfl⟩
  | cons c s ih =>
      have hcons : utf8Bytes (c :: s) = String.utf8EncodeChar c ++ utf8Bytes s := rfl
      obtain ⟨d, ha, hrest⟩ | ⟨d, henc, rfl⟩ := List.append_eq_append_iff.mp (hcons.symm.trans h)
      · obtain ⟨t, u, rfl, rfl, rfl⟩ := ih hrest
        exact ⟨c :: t, u, rfl, ha, rfl⟩
      · obtain ⟨x, xs, hx, -, htail⟩ := encode_shape c
        cases a with
        | nil => exact ⟨[], c :: s, rfl, rfl, by rw [hcons, henc]; rfl⟩
        | cons y a =>
            rw [hx, List.cons_append] at henc
            obtain ⟨rfl, rfl⟩ := List.cons.inj henc
            cases d with
            | nil => exact ⟨[c], s, rfl, by simp [utf8Bytes, hx], rfl⟩
            | cons z d =>
                have hz := htail z (by simp)
                rw [hb z (by simp)] at hz
                cases hz

theorem head?_utf8Bytes (s : Str) : ∀ x ∈ (utf8Bytes s).head?, contIn 0x80 0xBF x = false := by
  cases s with
  | nil => simp [utf8Bytes]
  | cons c s =>
      obtain ⟨x, xs, hx, hlead, -⟩ := encode_shape c
      simp [utf8Bytes, hx, hlead]

/-- Bytes with a text after them are those of a text when they are so themselves. -/
theorem decodeUtf8_append (a : List UInt8) (t : Str) :
    decodeUtf8 (a ++ utf8Bytes t) = (decodeUtf8 a).map (· ++ t) := by
  ext u
  simp only [decodeUtf8_eq_some, Option.map_eq_some_iff]
  constructor
  · intro h
    obtain ⟨v, w, rfl, rfl, hw⟩ := utf8Bytes_eq_append h.symm (head?_utf8Bytes t)
    have hwt : some w = some t := by
      rw [← decodeUtf8_utf8Bytes w, ← hw, decodeUtf8_utf8Bytes]
    exact ⟨v, rfl, by rw [Option.some.inj hwt]⟩
  · rintro ⟨v, rfl, rfl⟩
    exact (utf8Bytes_append v t).symm

/-- Bytes around a newline are those of a text when both sides are. -/
theorem decodeUtf8_newline (a b : List UInt8) : decodeUtf8 (a ++ 10 :: b) =
    (decodeUtf8 a).bind fun s => (decodeUtf8 b).map fun t => s ++ '\n' :: t := by
  ext u
  simp only [decodeUtf8_eq_some, Option.bind_eq_some_iff, Option.map_eq_some_iff]
  constructor
  · intro h
    obtain ⟨t, v, rfl, rfl, hv⟩ := utf8Bytes_eq_append h.symm (by rintro x ⟨⟩; decide)
    cases v with
    | nil => cases hv
    | cons c v =>
        obtain ⟨x, xs, hx, hhead⟩ := lossyHead_encode c
        have hcons : utf8Bytes (c :: v) = x :: (xs ++ utf8Bytes v) := by simp [utf8Bytes, hx]
        rw [hcons] at hv
        obtain ⟨rfl, rfl⟩ := List.cons.inj hv
        obtain ⟨rfl, hlen⟩ := Prod.mk.inj (hhead [])
        obtain rfl := List.eq_nil_of_length_eq_zero hlen.symm
        exact ⟨t, rfl, v, rfl, rfl⟩
  · rintro ⟨t, rfl, v, rfl, rfl⟩
    rw [utf8Bytes_append]
    rfl

end Pfsnitch.Lib
