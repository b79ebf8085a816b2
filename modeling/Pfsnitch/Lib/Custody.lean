import Mathlib.Algebra.Order.BigOperators.Group.List
import Mathlib.Algebra.Order.Group.Nat
import Mathlib.Data.List.AList
import Mathlib.Logic.Function.Basic

/-!
# Pfsnitch.Lib.Custody

Blocks of memory that lie on a list, and who holds them.

A `Ledger` is what an allocator has handed out, and the list the blocks are linked
into.  Its operations fail where a program would go wrong: a block that is read after it
was freed, freed twice, or taken off a list it is not on.  `Custody` says that every block
is on the list once, and that nobody else holds what one holds; under it no operation
fails (`Custody.remove`, `Custody.read`, `Custody.drain`), and what the holders hold
changes as a map does.
-/

namespace Pfsnitch.Lib

universe u v w

/-- An allocator: where the next block is.  It may give an address that was freed. -/
structure Malloc (P : Type u) (α : Type v) [DecidableEq P] where
  pick : Nat → (AList fun _ : P => α) → P
  fresh : ∀ n heap, pick n heap ∉ heap

/-- Blocks behind all others. -/
def Malloc.bump {α : Type v} : Malloc Nat α where
  pick n heap := heap.keys.foldr (· + ·) 0 + n + 1
  fresh n heap h := by
    have hle : heap.keys.foldr (· + ·) 0 + n + 1 ≤ heap.keys.foldr (· + ·) 0 :=
      List.le_sum_of_mem (AList.mem_keys.mpr h)
    omega

instance {α : Type v} : Inhabited (Malloc Nat α) := ⟨.bump⟩

/-- What goes wrong with memory. -/
inductive Fault where
  | useAfterFree
  | badFree
  | notListed
  | leak
deriving DecidableEq, Repr

/-- Blocks, and the list they are on. -/
structure Ledger (P : Type u) (α : Type v) [DecidableEq P] where
  heap : AList fun _ : P => α
  all : List P

namespace Ledger

variable {P : Type u} {α : Type v} [DecidableEq P]

def empty : Ledger P α := ⟨∅, []⟩

/-- A new block, at the end of the list. -/
def add (l : Ledger P α) (p : P) (v : α) : Ledger P α := ⟨l.heap.insert p v, l.all ++ [p]⟩

/-- Take a block off the list and free it. -/
def remove (l : Ledger P α) (p : P) : Except Fault (Ledger P α) :=
  if p ∉ l.all then .error .notListed
  else if p ∉ l.heap then .error .badFree
  else .ok ⟨l.heap.erase p, l.all.erase p⟩

/-- What is in a block. -/
def read (l : Ledger P α) (p : P) : Except Fault α :=
  match l.heap.lookup p with
  | some v => .ok v
  | none => .error .useAfterFree

/-- Free the blocks of a list, the first one first. -/
def freeAll (heap : AList fun _ : P => α) : List P → Except Fault (AList fun _ : P => α)
  | [] => .ok heap
  | p :: ps => if p ∈ heap then freeAll (heap.erase p) ps else .error .badFree

/-- Free what is on the list; nothing may be left. -/
def drain (l : Ledger P α) : Except Fault (Ledger P α) :=
  match freeAll l.heap l.all with
  | .ok heap => if heap.keys = [] then .ok empty else .error .leak
  | .error e => .error e

/-- Each block is on the list, once. -/
def Listed (l : Ledger P α) : Prop := l.all.Perm l.heap.keys

namespace Listed

variable {l : Ledger P α} {p : P}

theorem empty : (Ledger.empty : Ledger P α).Listed := .nil

theorem nodup (h : l.Listed) : l.all.Nodup := h.nodup_iff.mpr l.heap.nodupKeys

theorem mem_heap (h : l.Listed) : p ∈ l.heap ↔ p ∈ l.all := AList.mem_keys.trans h.mem_iff.symm

/-- A block on the list is there. -/
theorem lookup (h : l.Listed) (hp : p ∈ l.all) : ∃ v, l.heap.lookup p = some v :=
  Option.isSome_iff_exists.mp (AList.lookup_isSome.mpr (h.mem_heap.mpr hp))

/-- A new block goes on the list. -/
theorem add (h : l.Listed) (hp : p ∉ l.heap) (v : α) : (l.add p v).Listed := by
  rw [Listed, Ledger.add, AList.keys_insert,
    List.erase_of_not_mem fun hmem => hp (AList.mem_keys.mpr hmem)]
  exact (List.perm_append_singleton p l.all).trans (h.cons p)

/-- A block on the list can be freed. -/
theorem remove (h : l.Listed) (hp : p ∈ l.all) :
    l.remove p = .ok ⟨l.heap.erase p, l.all.erase p⟩ ∧
      Listed (⟨l.heap.erase p, l.all.erase p⟩ : Ledger P α) := by
  constructor
  · rw [Ledger.remove, if_neg (not_not.mpr hp), if_neg (not_not.mpr (h.mem_heap.mpr hp))]
  · rw [Listed, AList.keys_erase]
    exact h.erase p

theorem freeAll_ok (heap : AList fun _ : P => α) (ps : List P) (h : ps.Perm heap.keys) :
    ∃ heap', freeAll heap ps = .ok heap' ∧ heap'.keys = [] := by
  induction ps generalizing heap with
  | nil => exact ⟨heap, rfl, h.symm.eq_nil⟩
  | cons p ps ih =>
      have hp : p ∈ heap := AList.mem_keys.mpr (h.mem_iff.mp List.mem_cons_self)
      have hrest : ps.Perm (heap.erase p).keys := by
        rw [AList.keys_erase]
        simpa using h.erase p
      rw [freeAll, if_pos hp]
      exact ih _ hrest

/-- All blocks can be freed at the end, and nothing is left. -/
theorem drain (h : l.Listed) : l.drain = .ok .empty := by
  obtain ⟨heap', hfree, hkeys⟩ := freeAll_ok l.heap l.all h
  rw [Ledger.drain, hfree]
  exact if_pos hkeys

end Listed

end Ledger

/-! ## custody -/

variable {P : Type u} {α : Type v} {K : Type w} [DecidableEq P] {l : Ledger P α}
  {held : K → Option P} {k : K} {p : P} {v : α}

/-- Each block is on the list once, and in one hand at most. -/
structure Custody (l : Ledger P α) (held : K → Option P) : Prop where
  listed : l.Listed
  live : ∀ k p, held k = some p → p ∈ l.all
  single : ∀ k k' p, held k = some p → held k' = some p → k = k'

/-- Each block is in somebody's hand. -/
def Covered (l : Ledger P α) (held : K → Option P) : Prop := ∀ p ∈ l.all, ∃ k, held k = some p

/-- What one holds. -/
def Ledger.holding (l : Ledger P α) (held : K → Option P) (k : K) : Option α :=
  (held k).bind l.heap.lookup

namespace Custody

theorem empty : Custody (Ledger.empty : Ledger P α) (fun _ : K => none) where
  listed := .empty
  live _ _ h := nomatch h
  single _ _ _ h := nomatch h

/-- What is held can be read. -/
theorem read (h : Custody l held) (hk : held k = some p) :
    ∃ v, l.read p = .ok v ∧ l.holding held k = some v := by
  have hp : p ∈ l.heap := h.listed.mem_heap.mpr (h.live k p hk)
  obtain ⟨v, hv⟩ := Option.isSome_iff_exists.mp (AList.lookup_isSome.mpr hp)
  refine ⟨v, ?_, ?_⟩
  · rw [Ledger.read, hv]
  · rw [Ledger.holding, hk, Option.bind_some, hv]

variable [DecidableEq K]

/-- A hand is emptied, and the block stays. -/
theorem lose (h : Custody l held) (k : K) : Custody l (Function.update held k none) where
  listed := h.listed
  live k' p hk' := by
    by_cases heq : k' = k
    · rw [heq, Function.update_self] at hk'
      cases hk'
    · rw [Function.update_of_ne heq] at hk'
      exact h.live k' p hk'
  single k₁ k₂ p h₁ h₂ := by
    by_cases heq₁ : k₁ = k
    · rw [heq₁, Function.update_self] at h₁
      cases h₁
    · by_cases heq₂ : k₂ = k
      · rw [heq₂, Function.update_self] at h₂
        cases h₂
      · rw [Function.update_of_ne heq₁] at h₁
        rw [Function.update_of_ne heq₂] at h₂
        exact h.single k₁ k₂ p h₁ h₂

theorem holding_lose (l : Ledger P α) (held : K → Option P) (k : K) :
    l.holding (Function.update held k none) = Function.update (l.holding held) k none := by
  funext k'
  by_cases heq : k' = k
  · rw [heq, Function.update_self, Ledger.holding, Function.update_self, Option.bind_none]
  · rw [Function.update_of_ne heq, Ledger.holding, Function.update_of_ne heq, Ledger.holding]

/-- A new block goes to an empty hand. -/
theorem add (h : Custody l held) (hp : p ∉ l.heap) (v : α) (k : K) :
    Custody (l.add p v) (Function.update held k (some p)) := by
  have hnew : ∀ k' q, held k' = some q → q ≠ p := fun k' q hk' heq =>
    hp (h.listed.mem_heap.mpr (heq ▸ h.live k' q hk'))
  refine ⟨?_, fun k' q hk' => ?_, fun k₁ k₂ q h₁ h₂ => ?_⟩
  · exact h.listed.add hp v
  · by_cases heq : k' = k
    · rw [heq, Function.update_self] at hk'
      obtain rfl := Option.some.inj hk'
      exact List.mem_append_right _ (List.mem_singleton.mpr rfl)
    · rw [Function.update_of_ne heq] at hk'
      exact List.mem_append_left _ (h.live k' q hk')
  · by_cases heq₁ : k₁ = k
    · by_cases heq₂ : k₂ = k
      · rw [heq₁, heq₂]
      · rw [heq₁, Function.update_self] at h₁
        rw [Function.update_of_ne heq₂] at h₂
        exact absurd (Option.some.inj h₁).symm (hnew k₂ q h₂)
    · rw [Function.update_of_ne heq₁] at h₁
      by_cases heq₂ : k₂ = k
      · rw [heq₂, Function.update_self] at h₂
        exact absurd (Option.some.inj h₂).symm (hnew k₁ q h₁)
      · rw [Function.update_of_ne heq₂] at h₂
        exact h.single k₁ k₂ q h₁ h₂

theorem holding_add (h : Custody l held) (hp : p ∉ l.heap) (v : α) (k : K) :
    (l.add p v).holding (Function.update held k (some p)) =
      Function.update (l.holding held) k (some v) := by
  funext k'
  by_cases heq : k' = k
  · rw [heq, Function.update_self, Ledger.holding, Function.update_self, Option.bind_some]
    exact AList.lookup_insert _
  · rw [Function.update_of_ne heq, Ledger.holding, Function.update_of_ne heq, Ledger.holding]
    cases hk' : held k' with
    | none => rfl
    | some q =>
        have hne : q ≠ p := fun heq => hp (h.listed.mem_heap.mpr (heq ▸ h.live k' q hk'))
        exact AList.lookup_insert_ne hne

/-- What is held can be freed, and is gone then. -/
theorem remove (h : Custody l held) (hk : held k = some p) :
    ∃ l', l.remove p = .ok l' ∧ Custody l' (Function.update held k none) ∧
      l'.holding (Function.update held k none) = Function.update (l.holding held) k none := by
  have hall := h.live k p hk
  have hother : ∀ k' q, Function.update held k none k' = some q → held k' = some q ∧ q ≠ p := by
    intro k' q hk'
    by_cases heq : k' = k
    · rw [heq, Function.update_self] at hk'
      cases hk'
    · rw [Function.update_of_ne heq] at hk'
      exact ⟨hk', fun hq => heq (h.single k' k p (hq ▸ hk') hk)⟩
  refine ⟨⟨l.heap.erase p, l.all.erase p⟩, ?_, ⟨?_, fun k' q hk' => ?_, fun k₁ k₂ q h₁ h₂ => ?_⟩, ?_⟩
  · exact (h.listed.remove hall).1
  · exact (h.listed.remove hall).2
  · obtain ⟨hheld, hne⟩ := hother k' q hk'
    exact (List.mem_erase_of_ne hne).mpr (h.live k' q hheld)
  · exact h.single k₁ k₂ q (hother k₁ q h₁).1 (hother k₂ q h₂).1
  · rw [← holding_lose]
    funext k'
    rw [Ledger.holding, Ledger.holding]
    cases hk' : Function.update held k none k' with
    | none => rfl
    | some q => exact AList.lookup_erase_ne (hother k' q hk').2

theorem covered_add (hc : Covered l held) (v : α) (hk : held k = none) :
    Covered (l.add p v) (Function.update held k (some p)) := by
  intro q hq
  obtain hq | hq := List.mem_append.mp hq
  · obtain ⟨k', hk'⟩ := hc q hq
    have hne : k' ≠ k := fun heq => by
      rw [heq, hk] at hk'
      cases hk'
    exact ⟨k', by rw [Function.update_of_ne hne, hk']⟩
  · exact ⟨k, by rw [Function.update_self, List.mem_singleton.mp hq]⟩

theorem covered_remove {l' : Ledger P α} (h : Custody l held) (hc : Covered l held)
    (hk : held k = some p) (hl' : l.remove p = .ok l') :
    Covered l' (Function.update held k none) := by
  intro q hq
  have hall : l'.all = l.all.erase p := by
    unfold Ledger.remove at hl'
    split_ifs at hl'
    exact congrArg Ledger.all (Except.ok.inj hl').symm
  rw [hall] at hq
  obtain ⟨hne, hq⟩ := h.listed.nodup.mem_erase_iff.mp hq
  obtain ⟨k', hk'⟩ := hc q hq
  have hother : k' ≠ k := fun heq => hne (Option.some.inj (hk'.symm.trans (heq ▸ hk)))
  exact ⟨k', by rw [Function.update_of_ne hother, hk']⟩

end Custody

end Pfsnitch.Lib
