import Mathlib.Data.Nat.Digits.Lemmas

/-!
# Pfsnitch.Lib.Layout

Structs as a C compiler lays them out in memory: each member at the next offset
that its alignment allows, the whole rounded up to the largest alignment,
integers least significant byte first.

A struct is the list of its members' types; `put` writes one, `get` reads the
members back at their offsets.

* `length_put` — a struct fills its size;
* `get_put` — what was written is read back, whatever follows in memory.
-/

namespace Pfsnitch.Lib

/-! ## integers -/

/-- The `w` bytes of a number, the least significant first. -/
def leBytes : Nat → Nat → List UInt8
  | 0, _ => []
  | w + 1, n => UInt8.ofNat n :: leBytes w (n / 256)

/-- The number of which these are the bytes. -/
def ofLeBytes (bs : List UInt8) : Nat := Nat.ofDigits 256 (bs.map UInt8.toNat)

@[simp] theorem length_leBytes (w n : Nat) : (leBytes w n).length = w := by
  induction w generalizing n with
  | zero => rfl
  | succ w ih => rw [leBytes, List.length_cons, ih]

/-- Bytes that do not fit are lost. -/
theorem ofLeBytes_leBytes (w n : Nat) : ofLeBytes (leBytes w n) = n % 256 ^ w := by
  induction w generalizing n with
  | zero => simp [leBytes, ofLeBytes, Nat.mod_one]
  | succ w ih =>
      have hcons : ofLeBytes (leBytes (w + 1) n) = n % 256 + 256 * ofLeBytes (leBytes w (n / 256)) := by
        simp [leBytes, ofLeBytes, Nat.ofDigits_cons]
      rw [hcons, ih, pow_succ', Nat.mod_mul]

theorem ofLeBytes_leBytes_of_lt {w n : Nat} (h : n < 256 ^ w) : ofLeBytes (leBytes w n) = n := by
  rw [ofLeBytes_leBytes, Nat.mod_eq_of_lt h]

/-! ## types -/

/-- The types of members. -/
inductive CType where
  | u8
  | u16
  | u32
  | u64
  | i32
  | bytes (n : Nat)
deriving DecidableEq, Repr

namespace CType

/-- The values of a type. -/
@[reducible] def Val : CType → Type
  | u8 => UInt8
  | u16 => UInt16
  | u32 => UInt32
  | u64 => UInt64
  | i32 => Int32
  | bytes n => { bs : List UInt8 // bs.length = n }

def size : CType → Nat
  | u8 => 1
  | u16 => 2
  | u32 | i32 => 4
  | u64 => 8
  | bytes n => n

def align : CType → Nat
  | u8 | bytes _ => 1
  | u16 => 2
  | u32 | i32 => 4
  | u64 => 8

/-- The bytes of a value. -/
def put : (t : CType) → t.Val → List UInt8
  | u8, x => [x]
  | u16, x => leBytes 2 x.toNat
  | u32, x => leBytes 4 x.toNat
  | u64, x => leBytes 8 x.toNat
  | i32, x => leBytes 4 x.toUInt32.toNat
  | bytes _, x => x.1

/-- The first bytes of a memory, and zeros where it ends too early. -/
def firstBytes (n : Nat) (mem : List UInt8) : List UInt8 := (mem ++ List.replicate n 0).take n

theorem length_firstBytes (n : Nat) (mem : List UInt8) : (firstBytes n mem).length = n := by
  rw [firstBytes, List.length_take, List.length_append, List.length_replicate]
  omega

theorem firstBytes_append {n : Nat} {bs : List UInt8} (h : bs.length = n) (rest : List UInt8) :
    firstBytes n (bs ++ rest) = bs := by
  rw [firstBytes, List.append_assoc, ← h, List.take_left]

/-- A member that is all zeros. -/
def zeros (n : Nat) : { bs : List UInt8 // bs.length = n } :=
  ⟨List.replicate n 0, List.length_replicate⟩

/-- The value of which these are the bytes. -/
def ofBytes : (t : CType) → List UInt8 → t.Val
  | u8, bs => bs.headD 0
  | u16, bs => UInt16.ofNat (ofLeBytes bs)
  | u32, bs => UInt32.ofNat (ofLeBytes bs)
  | u64, bs => UInt64.ofNat (ofLeBytes bs)
  | i32, bs => ⟨UInt32.ofNat (ofLeBytes bs)⟩
  | bytes n, bs => ⟨firstBytes n bs, length_firstBytes n bs⟩

/-- The value at the front of a memory. -/
def get (t : CType) (mem : List UInt8) : t.Val := t.ofBytes (firstBytes t.size mem)

theorem length_put (t : CType) (x : t.Val) : (t.put x).length = t.size := by
  cases t with
  | u8 => rfl
  | u16 | u32 | u64 | i32 => exact length_leBytes _ _
  | bytes n => exact x.2

theorem ofBytes_put (t : CType) (x : t.Val) : t.ofBytes (t.put x) = x := by
  cases t with
  | u8 => rfl
  | u16 => rw [put, ofBytes, ofLeBytes_leBytes_of_lt x.toNat_lt, UInt16.ofNat_toNat]
  | u32 => rw [put, ofBytes, ofLeBytes_leBytes_of_lt x.toNat_lt, UInt32.ofNat_toNat]
  | u64 => rw [put, ofBytes, ofLeBytes_leBytes_of_lt x.toNat_lt, UInt64.ofNat_toNat]
  | i32 => rw [put, ofBytes, ofLeBytes_leBytes_of_lt x.toUInt32.toNat_lt, UInt32.ofNat_toNat]
  | bytes n =>
      have hall := firstBytes_append x.2 []
      rw [List.append_nil] at hall
      exact Subtype.ext hall

/-- A value is read back, whatever follows it. -/
theorem get_put (t : CType) (x : t.Val) (rest : List UInt8) : t.get (t.put x ++ rest) = x := by
  rw [get, firstBytes_append (t.length_put x), t.ofBytes_put]

end CType

/-! ## structs -/

/-- The next multiple of an alignment. -/
def alignUp (off align : Nat) : Nat := (off + align - 1) / align * align

theorem le_alignUp {align : Nat} (h : 0 < align) (off : Nat) : off ≤ alignUp off align := by
  have hdiv := Nat.div_add_mod (off + align - 1) align
  have hmod := Nat.mod_lt (off + align - 1) h
  rw [alignUp, mul_comm]
  omega

theorem CType.align_pos (t : CType) : 0 < t.align := by cases t <;> exact Nat.zero_lt_succ _

namespace Struct

/-- The values of the members. -/
def Vals : List CType → Type
  | [] => Unit
  | t :: ts => t.Val × Vals ts

/-- Where the next member of the type starts. -/
def start (off : Nat) (t : CType) : Nat := alignUp off t.align

/-- Where the last member ends. -/
def stop (off : Nat) : List CType → Nat
  | [] => off
  | t :: ts => stop (start off t + t.size) ts

/-- The alignment of the whole. -/
def align (ts : List CType) : Nat := (ts.map CType.align).foldr max 1

/-- `sizeof`. -/
def size (ts : List CType) : Nat := alignUp (stop 0 ts) (align ts)

/-- The members from an offset on, each behind the gap its alignment needs. -/
def putFrom (off : Nat) : (ts : List CType) → Vals ts → List UInt8
  | [], _ => []
  | t :: ts, (x, xs) =>
    List.replicate (start off t - off) 0 ++ (t.put x ++ putFrom (start off t + t.size) ts xs)

/-- The bytes of a struct. -/
def put (ts : List CType) (xs : Vals ts) : List UInt8 :=
  putFrom 0 ts xs ++ List.replicate (size ts - stop 0 ts) 0

/-- Read the members at their offsets. -/
def getFrom (off : Nat) : (ts : List CType) → List UInt8 → Vals ts
  | [], _ => ()
  | t :: ts, mem => (t.get (mem.drop (start off t)), getFrom (start off t + t.size) ts mem)

/-- The struct at the front of a memory. -/
def get (ts : List CType) (mem : List UInt8) : Vals ts := getFrom 0 ts mem

theorem le_start (off : Nat) (t : CType) : off ≤ start off t := le_alignUp t.align_pos off

theorem length_putFrom (off : Nat) (ts : List CType) (xs : Vals ts) :
    off + (putFrom off ts xs).length = stop off ts := by
  induction ts generalizing off with
  | nil => rfl
  | cons t ts ih =>
      obtain ⟨x, xs⟩ := xs
      have hgap := le_start off t
      rw [stop, ← ih _ xs, putFrom, List.length_append, List.length_append, List.length_replicate,
        t.length_put]
      omega

theorem align_pos (ts : List CType) : 0 < align ts := by
  induction ts with
  | nil => decide
  | cons t ts ih => exact lt_of_lt_of_le ih (Nat.le_max_right _ _)

/-- A struct fills its size. -/
theorem length_put (ts : List CType) (xs : Vals ts) : (put ts xs).length = size ts := by
  have hstop := length_putFrom 0 ts xs
  have hsize : stop 0 ts ≤ size ts := le_alignUp (align_pos ts) _
  rw [put, List.length_append, List.length_replicate]
  omega

theorem getFrom_putFrom (front : List UInt8) (ts : List CType) (xs : Vals ts) (rest : List UInt8) :
    getFrom front.length ts (front ++ (putFrom front.length ts xs ++ rest)) = xs := by
  induction ts generalizing front with
  | nil => rfl
  | cons t ts ih =>
      obtain ⟨x, xs⟩ := xs
      have hgap := le_start front.length t
      -- the gap, and then the member, join what is in front
      obtain ⟨front', hfront'⟩ :
          ∃ front', front' = front ++ List.replicate (start front.length t - front.length) 0 := ⟨_, rfl⟩
      have hlen : start front.length t = front'.length := by
        rw [hfront', List.length_append, List.length_replicate]
        omega
      have hnext : start front.length t + t.size = (front' ++ t.put x).length := by
        rw [List.length_append, hlen, t.length_put]
      have hmem : front ++ (putFrom front.length (t :: ts) (x, xs) ++ rest) =
          front' ++ (t.put x ++ (putFrom (start front.length t + t.size) ts xs ++ rest)) := by
        simp only [hfront', putFrom, List.append_assoc]
      rw [getFrom, hmem]
      refine congrArg₂ Prod.mk ?_ ?_
      · rw [hlen, List.drop_left, t.get_put]
      · rw [hnext, ← List.append_assoc]
        exact ih _ _

/-- What was written is read back. -/
theorem get_put (ts : List CType) (xs : Vals ts) (rest : List UInt8) :
    get ts (put ts xs ++ rest) = xs := by
  rw [get, put, List.append_assoc]
  exact getFrom_putFrom [] ts xs _

end Struct

end Pfsnitch.Lib
