import Mathlib.Data.List.AList

/-!
# Pfsnitch.Lib.Memo

Maps that are emptied when they grow too large, and where their values come from.

A memo keeps a value computed from an input for each key; the input itself is
gone.  `Remembers` says which inputs these are, as a map of the same keys:
`Remembers.insert` keeps it up, and `Remembers.found` and `Remembers.missing`
read it.
-/

namespace Pfsnitch.Lib

universe u v w

variable {κ : Type u} {α : Type v} {β : Type w} [DecidableEq κ] {cap : Nat}

/-! ## maps that are emptied when they grow too large -/

/-- Insert into a map that is emptied first when it has more than `cap` keys. -/
def insertBounded (cap : Nat) (m : AList fun _ : κ => β) (k : κ) (v : β) : AList fun _ : κ => β :=
  (if m.entries.length > cap then ∅ else m).insert k v

theorem lookup_insertBounded_self (m : AList fun _ : κ => β) (k : κ) (v : β) :
    (insertBounded cap m k v).lookup k = some v :=
  AList.lookup_insert _

theorem lookup_insertBounded_ne {m : AList fun _ : κ => β} {k k' : κ} {v : β} (h : k' ≠ k) :
    (insertBounded cap m k v).lookup k' =
      if m.entries.length > cap then none else m.lookup k' := by
  rw [insertBounded, AList.lookup_insert_ne h]
  split
  · rfl
  · rfl

omit [DecidableEq κ] in
theorem length_entries_of_keys {m : AList fun _ : κ => β} {m' : AList fun _ : κ => α}
    (h : m.keys = m'.keys) : m.entries.length = m'.entries.length := by
  simpa [AList.keys, List.keys] using congrArg List.length h

theorem keys_insertBounded {m : AList fun _ : κ => β} {m' : AList fun _ : κ => α} {k : κ} {v : β}
    {v' : α} (h : m.keys = m'.keys) :
    (insertBounded cap m k v).keys = (insertBounded cap m' k v').keys := by
  rw [insertBounded, insertBounded, length_entries_of_keys h, AList.keys_insert, AList.keys_insert]
  split
  · rfl
  · rw [h]

/-! ## values remembered of inputs -/

variable {g : α → Option β} {m : AList fun _ : κ => β} {inputs : AList fun _ : κ => α} {k : κ}
  {a : α} {b : β}

/-- The map holds, for each key, what `g` gives for its input in `inputs`. -/
structure Remembers (g : α → Option β) (m : AList fun _ : κ => β) (inputs : AList fun _ : κ => α) :
    Prop where
  keys : m.keys = inputs.keys
  entry : ∀ k, m.lookup k = (inputs.lookup k).bind g

theorem remembers_empty : Remembers g (∅ : AList fun _ : κ => β) ∅ :=
  ⟨rfl, fun _ => rfl⟩

/-- A value is remembered. -/
theorem Remembers.insert (h : Remembers g m inputs) (hb : g a = some b) :
    Remembers g (insertBounded cap m k b) (insertBounded cap inputs k a) where
  keys := keys_insertBounded h.keys
  entry k' := by
    by_cases hk : k' = k
    · rw [hk, lookup_insertBounded_self, lookup_insertBounded_self, Option.bind_some, hb]
    · rw [lookup_insertBounded_ne hk, lookup_insertBounded_ne hk, length_entries_of_keys h.keys]
      split
      · rfl
      · exact h.entry k'

/-- The value of an input that is remembered is found. -/
theorem Remembers.found (h : Remembers g m inputs) (ha : inputs.lookup k = some a) :
    ∃ b, g a = some b ∧ m.lookup k = some b := by
  have hkey : k ∈ m.keys := by
    rw [h.keys]
    exact AList.mem_keys.mp (AList.lookup_isSome.mp (by rw [ha]; rfl))
  obtain ⟨b, hb⟩ := Option.isSome_iff_exists.mp (AList.lookup_isSome.mpr (AList.mem_keys.mpr hkey))
  have hentry := h.entry k
  rw [ha, Option.bind_some, hb] at hentry
  exact ⟨b, hentry.symm, hb⟩

/-- Nothing is found for a key without an input. -/
theorem Remembers.missing (h : Remembers g m inputs) (hk : inputs.lookup k = none) :
    m.lookup k = none := by
  rw [h.entry, hk, Option.bind_none]

end Pfsnitch.Lib
