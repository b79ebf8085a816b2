import Mathlib.Data.List.Destutter
import Mathlib.Tactic.SplitIfs

/-!
# Pfsnitch.Lib.Returns

Lists whose elements do not come back once another one has stood between.

Merging the neighbours that are equal (`List.destutter`) leaves such a list without
duplicates, and no other (`nodup_destutter_iff`).
-/

namespace Pfsnitch.Lib

universe u

variable {α : Type u} {a x : α} {l : List α}

/-- No element comes back after another one. -/
def NoReturn (l : List α) : Prop := ∀ t u, [t, u, t].Sublist l → u = t

theorem noReturn_nil : NoReturn ([] : List α) := by
  intro t u h
  cases h

theorem noReturn_singleton (a : α) : NoReturn [a] := by
  intro t u h
  have hlen := h.length_le
  simp at hlen

/-- A repeated head does not matter. -/
theorem noReturn_cons_self : NoReturn (a :: a :: l) ↔ NoReturn (a :: l) := by
  constructor
  · exact fun h t u hs => h t u (hs.cons a)
  · intro h t u hs
    obtain hrest | ⟨rfl, hrest⟩ := List.cons_sublist_cons'.mp hs
    · exact h t u hrest
    · obtain htail | ⟨rfl, -⟩ := List.cons_sublist_cons'.mp hrest
      · exact h t u (htail.cons_cons t)
      · rfl

/-- A head that changes must not come back. -/
theorem noReturn_cons_cons (hne : a ≠ x) :
    NoReturn (a :: x :: l) ↔ a ∉ l ∧ NoReturn (x :: l) := by
  constructor
  · intro h
    refine ⟨fun ha => ?_, fun t u hs => h t u (hs.cons a)⟩
    have hback := h a x (((List.singleton_sublist.mpr ha).cons_cons x).cons_cons a)
    exact hne hback.symm
  · rintro ⟨ha, h⟩ t u hs
    obtain hrest | ⟨rfl, hrest⟩ := List.cons_sublist_cons'.mp hs
    · exact h t u hrest
    · have ht : t ∈ l := by
        obtain htail | ⟨-, htail⟩ := List.cons_sublist_cons'.mp hrest
        · exact htail.subset (List.mem_cons_of_mem u (List.mem_singleton_self t))
        · exact List.singleton_sublist.mp htail
      exact absurd ht ha

variable [DecidableEq α]

theorem mem_destutter'_ne (y : α) : y ∈ l.destutter' (· ≠ ·) a ↔ y ∈ a :: l := by
  induction l generalizing a with
  | nil => rfl
  | cons x l ih =>
      rw [List.destutter'_cons]
      split_ifs with hne
      · rw [List.mem_cons, ih, List.mem_cons (a := y) (b := a)]
      · rw [ih]
        obtain rfl := not_not.mp hne
        simp

theorem nodup_destutter'_iff : (l.destutter' (· ≠ ·) a).Nodup ↔ NoReturn (a :: l) := by
  induction l generalizing a with
  | nil => simp [noReturn_singleton]
  | cons x l ih =>
      rw [List.destutter'_cons]
      split_ifs with hne
      · rw [List.nodup_cons, mem_destutter'_ne, ih, noReturn_cons_cons hne, List.mem_cons, not_or]
        simp [hne]
      · obtain rfl := not_not.mp hne
        rw [ih, noReturn_cons_self]

/-- Merged neighbours are without duplicates exactly when nothing comes back. -/
theorem nodup_destutter_iff : (l.destutter (· ≠ ·)).Nodup ↔ NoReturn l := by
  cases l with
  | nil => simp [noReturn_nil]
  | cons a l => exact nodup_destutter'_iff

end Pfsnitch.Lib
