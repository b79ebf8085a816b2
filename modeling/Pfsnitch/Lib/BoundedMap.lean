import Pfsnitch.Lib.HashTable
import Mathlib.Data.List.AList
import Mathlib.Algebra.BigOperators.Group.Finset.Piecewise

/-!
# Pfsnitch.Lib.BoundedMap

A finite map with a bound on its size, and what it means for a hash table to
represent one.

An insertion updates a key that is there, adds one as long as there is room,
and is lost otherwise.  `Represents.insert` and `Represents.find` are the rules:
as long as memory can be had, a table of the same bound does the same.
-/

namespace Pfsnitch.Lib

universe u v

/-- A finite map with at most `cap` keys. -/
structure BoundedMap (κ : Type u) (β : Type v) (cap : Nat) where
  map : AList fun _ : κ => β
  bound : map.keys.length ≤ cap

namespace BoundedMap

variable {κ : Type u} {β : Type v} [DecidableEq κ] {cap : Nat} {m : BoundedMap κ β cap} {k k' : κ}
  {v : β}

/-- The map without keys. -/
def empty : BoundedMap κ β cap := ⟨∅, Nat.zero_le _⟩

/-- The number of keys. -/
def size (m : BoundedMap κ β cap) : Nat := m.map.keys.length

/-- The value of a key. -/
def lookup (m : BoundedMap κ β cap) (k : κ) : Option β := m.map.lookup k

/-- Is there a place for the key? -/
def Fits (m : BoundedMap κ β cap) (k : κ) : Prop := (m.lookup k).isSome ∨ m.size < cap

instance (m : BoundedMap κ β cap) (k : κ) : Decidable (m.Fits k) :=
  inferInstanceAs (Decidable (_ ∨ _))

theorem length_keys_insert (m : AList fun _ : κ => β) (k : κ) (v : β) :
    (m.insert k v).keys.length =
      if (m.lookup k).isSome then m.keys.length else m.keys.length + 1 := by
  rw [AList.keys_insert, List.length_cons]
  by_cases hk : k ∈ m.keys
  · rw [if_pos (AList.lookup_isSome.mpr hk), List.length_erase_of_mem hk]
    have hpos := List.length_pos_of_mem hk
    omega
  · rw [if_neg fun h => hk (AList.lookup_isSome.mp h), List.erase_of_not_mem hk]

/-- Set the value of a key, if there is a place for it. -/
def insert (m : BoundedMap κ β cap) (k : κ) (v : β) : BoundedMap κ β cap :=
  if h : m.Fits k then
    ⟨m.map.insert k v, by
      have hbound := m.bound
      rw [length_keys_insert]
      split
      · exact hbound
      · rename_i hk
        exact h.resolve_left hk⟩
  else m

@[simp] theorem lookup_empty (k : κ) : (empty : BoundedMap κ β cap).lookup k = none :=
  AList.lookup_empty k

theorem lookup_insert :
    (m.insert k v).lookup k' = if k' = k ∧ m.Fits k then some v else m.lookup k' := by
  unfold insert
  by_cases hfits : m.Fits k
  · rw [dif_pos hfits]
    by_cases hk : k' = k
    · subst hk
      rw [if_pos ⟨rfl, hfits⟩]
      exact AList.lookup_insert m.map
    · rw [if_neg fun h => hk h.1]
      exact AList.lookup_insert_ne hk
  · rw [dif_neg hfits, if_neg fun h => hfits h.2]

theorem size_insert : (m.insert k v).size =
    if (m.lookup k).isSome ∨ ¬ m.Fits k then m.size else m.size + 1 := by
  unfold insert
  by_cases hfits : m.Fits k
  · rw [dif_pos hfits]
    exact (length_keys_insert m.map k v).trans (by simp [hfits, lookup, size])
  · rw [dif_neg hfits, if_pos (.inr hfits)]

end BoundedMap

/-! ## tables that represent a bounded map -/

namespace Table

variable {κ : Type u} {β : Type v} [DecidableEq κ] {hash : κ → Nat} {n cap : Nat}
  {t : Table κ β} {m : BoundedMap κ β cap} {k : κ} {v : β}

/-- The entries are in the buckets of their hashes and differ in their keys, the
counter counts them, and the lookups are those of the map. -/
structure Represents (hash : κ → Nat) (n : Nat) (t : Table κ β) (m : BoundedMap κ β cap) :
    Prop where
  placed : ∀ b, ∀ e ∈ t.bucket b, hash e.1 = b
  distinct : ∀ b, ((t.bucket b).map Prod.fst).Nodup
  total : t.count = ∑ b ∈ Finset.range n, (t.bucket b).length
  count : t.count = m.size
  find : ∀ k, t.find hash k = m.lookup k

theorem represents_empty :
    Represents hash n (empty : Table κ β) (BoundedMap.empty : BoundedMap κ β cap) where
  placed b e he := absurd he List.not_mem_nil
  distinct b := List.nodup_nil
  total := by simp [empty]
  count := rfl
  find k := (BoundedMap.lookup_empty k).symm

theorem updateIn_keys (k : κ) (v : β) (l : List (κ × β)) :
    (updateIn k v l).map Prod.fst = l.map Prod.fst := by
  induction l with
  | nil => rfl
  | cons e l ih =>
      obtain ⟨k', v'⟩ := e
      rw [updateIn]
      split
      · rfl
      · rw [List.map_cons, List.map_cons, ih]

theorem mem_keys_of_findIn {k : κ} {l : List (κ × β)} (h : findIn k l = none) :
    k ∉ l.map Prod.fst := by
  induction l with
  | nil => exact List.not_mem_nil
  | cons e l ih =>
      obtain ⟨k', v'⟩ := e
      rw [findIn] at h
      split at h
      · cases h
      · rename_i hk
        rw [List.map_cons, List.mem_cons, not_or]
        exact ⟨fun heq => hk heq.symm, ih h⟩

omit [DecidableEq κ] in
/-- The sizes of the buckets after one of them has changed. -/
theorem sum_length_update {f : Nat → List (κ × β)} {b : Nat} {l : List (κ × β)} (hb : b < n) :
    (∑ i ∈ Finset.range n, (Function.update f b l i).length) + (f b).length =
      (∑ i ∈ Finset.range n, (f i).length) + l.length := by
  have hmem : b ∈ Finset.range n := Finset.mem_range.mpr hb
  have hrest : ∑ i ∈ Finset.range n \ {b}, (Function.update f b l i).length =
      ∑ i ∈ Finset.range n \ {b}, (f i).length :=
    Finset.sum_congr rfl fun i hi => by
      rw [Function.update_of_ne fun h => (Finset.mem_sdiff.mp hi).2 (Finset.mem_singleton.mpr h)]
  rw [← Finset.sum_sdiff (Finset.singleton_subset_iff.mpr hmem), Finset.sum_singleton, hrest,
    Function.update_self,
    ← Finset.sum_sdiff (f := fun i => (f i).length) (Finset.singleton_subset_iff.mpr hmem),
    Finset.sum_singleton]
  omega

/-- The bucket of a key is replaced by one that has nothing new but entries of the key. -/
theorem Represents.replace {m' : BoundedMap κ β cap} {l : List (κ × β)} {c : Nat}
    (h : Represents hash n t m) (hb : hash k < n)
    (hplaced : ∀ e ∈ l, e.1 = k ∨ e ∈ t.bucket (hash k)) (hdistinct : (l.map Prod.fst).Nodup)
    (htotal : c + (t.bucket (hash k)).length = t.count + l.length) (hcount : c = m'.size)
    (hfind : ∀ k', (⟨Function.update t.bucket (hash k) l, c⟩ : Table κ β).find hash k' =
      m'.lookup k') :
    Represents hash n ⟨Function.update t.bucket (hash k) l, c⟩ m' := by
  refine ⟨fun b e he => ?_, fun b => ?_, ?_, hcount, hfind⟩
  · by_cases hbk : b = hash k
    · subst hbk
      simp only [Function.update_self] at he
      obtain hek | he := hplaced e he
      · rw [hek]
      · exact h.placed _ e he
    · simp only [Function.update_of_ne hbk] at he
      exact h.placed b e he
  · by_cases hbk : b = hash k
    · subst hbk
      simpa only [Function.update_self] using hdistinct
    · simpa only [Function.update_of_ne hbk] using h.distinct b
  · have hsum := sum_length_update (f := t.bucket) (l := l) hb
    have hold := h.total
    simp only at hsum ⊢
    omega

/-- With memory at hand, an insertion into the table is one into the map. -/
theorem Represents.insert (h : Represents hash n t m) (hb : hash k < n) (v : β) :
    Represents hash n (t.insert hash cap true k v) (m.insert k v) := by
  have hfits : t.Accepts hash cap true k ↔ m.Fits k := by
    rw [Accepts, BoundedMap.Fits, h.find, h.count]
    simp
  have hfind : ∀ k', (t.insert hash cap true k v).find hash k' = (m.insert k v).lookup k' := by
    intro k'
    rw [find_insert, BoundedMap.lookup_insert, h.find]
    simp only [hfits]
  have hsize := BoundedMap.size_insert (m := m) (k := k) (v := v)
  by_cases hold : (t.find hash k).isSome
  · -- the key is there
    have hins : t.insert hash cap true k v =
        { t with bucket := Function.update t.bucket (hash k) (updateIn k v (t.bucket (hash k))) } :=
      if_pos hold
    have hlen := congrArg List.length (updateIn_keys k v (t.bucket (hash k)))
    rw [List.length_map, List.length_map] at hlen
    rw [h.find] at hold
    rw [if_pos (.inl hold)] at hsize
    rw [hins] at hfind ⊢
    refine h.replace hb (fun e he => ?_) ?_ (by rw [hlen]) (h.count.trans hsize.symm) hfind
    · exact (mem_updateIn he).imp_left (congrArg Prod.fst)
    · rw [updateIn_keys]
      exact h.distinct _
  · by_cases hfull : t.count ≥ cap
    · -- the table is full
      have hins : t.insert hash cap true k v = t := by
        rw [Table.insert, if_neg hold, if_pos hfull]
      have hno : ¬ m.Fits k := by
        rw [← hfits]
        rintro (hk | ⟨hlt, -⟩)
        · exact hold hk
        · exact absurd hlt (Nat.not_lt.mpr hfull)
      rw [if_pos (.inr hno)] at hsize
      rw [hins] at hfind ⊢
      exact ⟨h.placed, h.distinct, h.total, h.count.trans hsize.symm, hfind⟩
    · -- one more entry
      have hins : t.insert hash cap true k v =
          { bucket := Function.update t.bucket (hash k) ((k, v) :: t.bucket (hash k))
            count := t.count + 1 } := by
        rw [Table.insert, if_neg hold, if_neg hfull, if_pos rfl]
      have hyes : m.Fits k := hfits.mp (.inr ⟨Nat.lt_of_not_le hfull, rfl⟩)
      have hnone : findIn k (t.bucket (hash k)) = none := by
        simpa [Table.find, Option.not_isSome_iff_eq_none] using hold
      have hold' : ¬ ((m.lookup k).isSome = true ∨ ¬ m.Fits k) := by
        rw [← h.find]
        exact not_or.mpr ⟨hold, not_not.mpr hyes⟩
      rw [if_neg hold'] at hsize
      rw [hins] at hfind ⊢
      refine h.replace hb (fun e he => ?_) ?_ ?_ (by rw [hsize, ← h.count]) hfind
      · exact (List.mem_cons.mp he).imp_left (congrArg Prod.fst)
      · rw [List.map_cons, List.nodup_cons]
        exact ⟨mem_keys_of_findIn hnone, h.distinct _⟩
      · rw [List.length_cons]
        omega

/-- The table is no larger than the map may be. -/
theorem Represents.bound (h : Represents hash n t m) : t.count ≤ cap := h.count ▸ m.bound

end Table

end Pfsnitch.Lib
