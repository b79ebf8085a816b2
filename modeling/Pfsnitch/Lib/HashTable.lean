import Mathlib.Logic.Function.Basic
import Mathlib.Data.List.Basic
import Mathlib.Tactic.SplitIfs

/-!
# Pfsnitch.Lib.HashTable

A bounded hash table with chained buckets.

An insertion updates the first entry with its key in place; a new key is put
at the head of its bucket, unless the table is full or no memory can be had,
and then the insertion is silently lost.  `find` reads one bucket.

* `find_insert` — what a lookup finds after an insertion;
* `mem_insert` — an insertion brings in no entry but its own;
* `mem_of_find` — what is found is an entry.
-/

namespace Pfsnitch.Lib

universe u v

/-- Buckets of key-value pairs and the number of entries. -/
structure Table (κ : Type u) (β : Type v) where
  bucket : Nat → List (κ × β)
  count : Nat

namespace Table

variable {κ : Type u} {β : Type v} [DecidableEq κ]

/-- The table without entries. -/
def empty : Table κ β := ⟨fun _ => [], 0⟩

instance : Inhabited (Table κ β) := ⟨empty⟩

/-- The value of the first entry with the key. -/
def findIn (k : κ) : List (κ × β) → Option β
  | [] => none
  | (k', v) :: rest => if k' = k then some v else findIn k rest

/-- The bucket with the first entry for the key updated. -/
def updateIn (k : κ) (v : β) : List (κ × β) → List (κ × β)
  | [] => []
  | (k', v') :: rest => if k' = k then (k', v) :: rest else (k', v') :: updateIn k v rest

variable (hash : κ → Nat) (cap : Nat)

/-- The value stored for a key. -/
def find (t : Table κ β) (k : κ) : Option β := findIn k (t.bucket (hash k))

/-- Can an insertion of the key take effect? -/
def Accepts (t : Table κ β) (memory : Bool) (k : κ) : Prop :=
  (t.find hash k).isSome ∨ (t.count < cap ∧ memory = true)

instance (t : Table κ β) (memory : Bool) (k : κ) : Decidable (t.Accepts hash cap memory k) :=
  inferInstanceAs (Decidable (_ ∨ _))

/-- Update in place, or add, or lose the entry. -/
def insert (t : Table κ β) (memory : Bool) (k : κ) (v : β) : Table κ β :=
  if (t.find hash k).isSome then
    { t with bucket := Function.update t.bucket (hash k) (updateIn k v (t.bucket (hash k))) }
  else if t.count ≥ cap then t
  else if memory then
    { bucket := Function.update t.bucket (hash k) ((k, v) :: t.bucket (hash k))
      count := t.count + 1 }
  else t

/-- An entry of the table. -/
def Mem (t : Table κ β) (k : κ) (v : β) : Prop := ∃ b, (k, v) ∈ t.bucket b

omit [DecidableEq κ] in
theorem not_mem_empty (k : κ) (v : β) : ¬ (empty : Table κ β).Mem k v := by
  rintro ⟨b, hb⟩
  exact absurd hb List.not_mem_nil

/-! ## one bucket -/

theorem mem_of_findIn {k : κ} {v : β} {l : List (κ × β)} (h : findIn k l = some v) :
    (k, v) ∈ l := by
  induction l with
  | nil => simp [findIn] at h
  | cons e l ih =>
      obtain ⟨k', v'⟩ := e
      simp only [findIn] at h
      split_ifs at h with hk
      · subst hk
        rw [Option.some.inj h]
        exact List.mem_cons_self
      · exact List.mem_cons_of_mem _ (ih h)

theorem findIn_updateIn {k k' : κ} {v : β} {l : List (κ × β)} (h : (findIn k l).isSome) :
    findIn k' (updateIn k v l) = if k' = k then some v else findIn k' l := by
  induction l with
  | nil => simp [findIn] at h
  | cons e l ih =>
      obtain ⟨k₀, v₀⟩ := e
      by_cases hk : k₀ = k
      · subst hk
        by_cases hk' : k' = k₀
        · simp [updateIn, findIn, hk']
        · simp [updateIn, findIn, hk', Ne.symm hk']
      · simp only [findIn, if_neg hk] at h
        by_cases hk' : k₀ = k'
        · subst hk'
          simp [updateIn, findIn, hk]
        · simp [updateIn, findIn, hk, hk', ih h]

theorem mem_updateIn {k : κ} {v : β} {l : List (κ × β)} {e : κ × β} (h : e ∈ updateIn k v l) :
    e = (k, v) ∨ e ∈ l := by
  induction l with
  | nil => exact absurd h List.not_mem_nil
  | cons e' l ih =>
      obtain ⟨k', v'⟩ := e'
      simp only [updateIn] at h
      split_ifs at h with hk
      · subst hk
        rcases List.mem_cons.mp h with rfl | h
        · exact .inl rfl
        · exact .inr (List.mem_cons_of_mem _ h)
      · rcases List.mem_cons.mp h with rfl | h
        · exact .inr List.mem_cons_self
        · exact (ih h).imp_right (List.mem_cons_of_mem _)

/-! ## the table -/

variable {hash cap} {t : Table κ β} {memory : Bool} {k k' : κ} {v v' : β}

/-- A new key with room for it adds to the count. -/
theorem count_insert (hnew : t.find hash k = none) (hroom : t.count < cap) :
    (t.insert hash cap true k v).count = t.count + 1 := by
  rw [insert, hnew, if_neg (by simp), if_neg (Nat.not_le.mpr hroom), if_pos rfl]

/-- What is found is an entry. -/
theorem mem_of_find (h : t.find hash k = some v) : t.Mem k v := ⟨_, mem_of_findIn h⟩

/-- After an insertion the key has its value, when the insertion takes effect,
and every other key what it had. -/
theorem find_insert : (t.insert hash cap memory k v).find hash k' =
    if k' = k ∧ t.Accepts hash cap memory k then some v else t.find hash k' := by
  unfold insert Accepts
  by_cases hfound : (t.find hash k).isSome
  · rw [if_pos hfound]
    by_cases hb : hash k' = hash k
    · simp only [find, hb, Function.update_self]
      rw [findIn_updateIn hfound]
      by_cases hk : k' = k
      · rw [if_pos hk, if_pos ⟨hk, .inl hfound⟩]
      · rw [if_neg hk, if_neg fun h => hk h.1]
    · have hk : k' ≠ k := fun h => hb (h ▸ rfl)
      simp [find, Function.update_of_ne hb, hk]
  · rw [if_neg hfound]
    by_cases hcount : t.count ≥ cap
    · rw [if_pos hcount, if_neg]
      rintro ⟨-, h | ⟨h, -⟩⟩
      · exact hfound h
      · exact absurd h (Nat.not_lt.mpr hcount)
    · rw [if_neg hcount]
      cases memory with
      | false => simp [hfound]
      | true =>
          by_cases hk : k' = k
          · subst hk
            simp [find, findIn, Nat.lt_of_not_le hcount]
          · by_cases hb : hash k' = hash k
            · simp [find, findIn, hb, hk, Ne.symm hk]
            · simp [find, Function.update_of_ne hb, hk]

/-- An insertion brings in no entry but its own. -/
theorem mem_insert (h : (t.insert hash cap memory k v).Mem k' v') :
    (k' = k ∧ v' = v) ∨ t.Mem k' v' := by
  obtain ⟨b, hb⟩ := h
  simp only [insert] at hb
  by_cases hbk : b = hash k
  · subst hbk
    split_ifs at hb
    · simp only [Function.update_self] at hb
      exact (mem_updateIn hb).imp Prod.mk.inj (fun h => ⟨_, h⟩)
    · exact .inr ⟨_, hb⟩
    · simp only [Function.update_self] at hb
      exact (List.mem_cons.mp hb).imp Prod.mk.inj (fun h => ⟨_, h⟩)
    · exact .inr ⟨_, hb⟩
  · right
    refine ⟨b, ?_⟩
    split_ifs at hb <;> simpa [Function.update_of_ne hbk] using hb

end Table

end Pfsnitch.Lib
