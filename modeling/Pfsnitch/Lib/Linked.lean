import Pfsnitch.Lib.Custody

/-!
# Pfsnitch.Lib.Linked

The blocks of a `Ledger`, as the list of what is in them.

As long as each block is on the list once (`Listed`), walking the list, changing a block and
freeing one never fail, and `contents` changes as a list does: `Listed.scan` finds the
first value that fits, `Listed.sweep` filters, `Listed.write` and `Listed.remove_split` change or
drop a value where it is.
-/

namespace Pfsnitch.Lib

universe u v

namespace Ledger

variable {P : Type u} {α : Type v} [DecidableEq P]

/-- What is in some blocks. -/
def values (l : Ledger P α) (ps : List P) : List α := ps.filterMap fun p => l.heap.lookup p

/-- What is in the blocks, in the order of the list. -/
def contents (l : Ledger P α) : List α := l.values l.all

/-- Walk a list up to the first block that fits. -/
def scan (l : Ledger P α) (fits : α → Bool) : List P → Except Fault (Option (P × α))
  | [] => .ok none
  | p :: ps =>
    match l.read p with
    | .ok v => if fits v then .ok (some (p, v)) else scan l fits ps
    | .error e => .error e

/-- Walk a list and free the blocks that go. -/
def sweep (goes : α → Bool) : List P → Ledger P α → Except Fault (Ledger P α)
  | [], l => .ok l
  | p :: ps, l =>
    match l.read p with
    | .ok v =>
      if goes v then
        match l.remove p with
        | .ok l => sweep goes ps l
        | .error e => .error e
      else sweep goes ps l
    | .error e => .error e

/-- Change what is in a block. -/
def write (l : Ledger P α) (p : P) (v : α) : Except Fault (Ledger P α) :=
  if p ∈ l.heap then .ok ⟨l.heap.insert p v, l.all⟩ else .error .useAfterFree

end Ledger

open Ledger

variable {P : Type u} {α : Type v} [DecidableEq P] {l : Ledger P α} {p : P} {as bs : List P} {v : α}

theorem Ledger.values_append (l : Ledger P α) (ps qs : List P) :
    l.values (ps ++ qs) = l.values ps ++ l.values qs := List.filterMap_append

theorem Ledger.values_cons (hv : l.heap.lookup p = some v) (ps : List P) :
    l.values (p :: ps) = v :: l.values ps := List.filterMap_cons_some (f := fun p => l.heap.lookup p) hv

theorem Ledger.values_congr {l' : Ledger P α} {ps : List P}
    (h : ∀ q ∈ ps, l'.heap.lookup q = l.heap.lookup q) : l'.values ps = l.values ps :=
  List.filterMap_congr h

namespace Ledger.Listed

theorem length_contents (h : l.Listed) : l.contents.length = l.all.length := by
  rw [contents, values, List.length_filterMap_eq_countP, List.countP_eq_length]
  intro p hp
  obtain ⟨v, hv⟩ := h.lookup hp
  rw [hv]
  rfl

theorem eq_empty (h : l.Listed) (hcontents : l.contents = []) : l = .empty := by
  have hlen := h.length_contents
  rw [hcontents] at hlen
  have hall : l.all = [] := List.length_eq_zero_iff.mp hlen.symm
  have hkeys : l.heap.keys = [] := (hall ▸ h : ([] : List P).Perm l.heap.keys).symm.eq_nil
  have hheap : l.heap = ∅ := AList.ext (List.map_eq_nil_iff.mp hkeys)
  obtain ⟨heap, all⟩ := l
  exact congrArg₂ Ledger.mk hheap hall

theorem contents_split (hsplit : l.all = as ++ p :: bs) (hv : l.heap.lookup p = some v) :
    l.contents = l.values as ++ v :: l.values bs := by
  rw [contents, hsplit, values_append, values_cons hv]

/-- A block is on one place of the list. -/
theorem not_mem_rest (h : l.Listed) (hsplit : l.all = as ++ p :: bs) : p ∉ as ∧ p ∉ bs := by
  have hnodup := h.nodup
  rw [hsplit, List.nodup_middle, List.nodup_cons, List.mem_append] at hnodup
  exact not_or.mp hnodup.1

/-! ## single blocks -/

/-- A new block goes behind the others. -/
theorem contents_add (h : l.Listed) (hp : p ∉ l.heap) (v : α) :
    (l.add p v).contents = l.contents ++ [v] := by
  have hold : (l.add p v).values l.all = l.contents := values_congr fun q hq =>
    AList.lookup_insert_ne fun heq => hp (h.mem_heap.mpr (heq ▸ hq))
  have hnew : (l.add p v).heap.lookup p = some v := AList.lookup_insert _
  rw [← hold, contents, Ledger.add, values_append]
  exact congrArg _ (values_cons hnew [])

/-- Change a block where it is. -/
theorem write (h : l.Listed) (hsplit : l.all = as ++ p :: bs) (v : α) :
    ∃ l', l.write p v = .ok l' ∧ l'.Listed ∧ l'.contents = l.values as ++ v :: l.values bs := by
  have hp : p ∈ l.heap := h.mem_heap.mpr (by rw [hsplit]; exact List.mem_append_cons_self)
  obtain ⟨has, hbs⟩ := h.not_mem_rest hsplit
  let l' : Ledger P α := ⟨l.heap.insert p v, l.all⟩
  have hnew : l'.heap.lookup p = some v := AList.lookup_insert _
  have hother : ∀ ps : List P, p ∉ ps → l'.values ps = l.values ps := fun ps hps =>
    values_congr fun q hq => AList.lookup_insert_ne fun heq => hps (heq ▸ hq)
  refine ⟨l', if_pos hp, ?_, ?_⟩
  · rw [Listed, AList.keys_insert]
    exact h.trans (List.perm_cons_erase (AList.mem_keys.mp hp))
  · rw [contents_split (l := l') hsplit hnew, hother as has, hother bs hbs]

/-- Free a block. -/
theorem remove_split (h : l.Listed) (hsplit : l.all = as ++ p :: bs) :
    ∃ l', l.remove p = .ok l' ∧ l'.Listed ∧ l'.all = as ++ bs ∧
      (∀ q ∈ as ++ bs, l'.heap.lookup q = l.heap.lookup q) ∧
      l'.contents = l.values as ++ l.values bs := by
  have hp : p ∈ l.all := by rw [hsplit]; exact List.mem_append_cons_self
  obtain ⟨has, hbs⟩ := h.not_mem_rest hsplit
  have hall : l.all.erase p = as ++ bs := by
    rw [hsplit, List.erase_append_right _ has, List.erase_cons_head]
  have hsame : ∀ q ∈ as ++ bs, (l.heap.erase p).lookup q = l.heap.lookup q := fun q hq =>
    AList.lookup_erase_ne fun heq => (List.mem_append.mp hq).elim (heq ▸ has) (heq ▸ hbs)
  obtain ⟨hremove, hlisted⟩ := h.remove hp
  refine ⟨_, hremove, hlisted, hall, hsame, ?_⟩
  · rw [contents, hall, values_congr hsame, values_append]

/-! ## walks -/

/-- A walk stops at the first block that fits, if there is one. -/
theorem scan (h : l.Listed) (fits : α → Bool) :
    (l.scan fits l.all = .ok none ∧ ∀ v ∈ l.contents, fits v = false) ∨
      ∃ as p bs v, l.scan fits l.all = .ok (some (p, v)) ∧ l.all = as ++ p :: bs ∧
        l.heap.lookup p = some v ∧ fits v = true ∧
        ∀ u ∈ l.values as, fits u = false := by
  have hwalk : ∀ ps done : List P, l.all = done ++ ps →
      (∀ u ∈ l.values done, fits u = false) →
      (l.scan fits ps = .ok none ∧ ∀ v ∈ l.contents, fits v = false) ∨
        ∃ as p bs v, l.scan fits ps = .ok (some (p, v)) ∧ l.all = as ++ p :: bs ∧
          l.heap.lookup p = some v ∧ fits v = true ∧
          ∀ u ∈ l.values as, fits u = false := by
    intro ps
    induction ps with
    | nil =>
        intro done hdone hfirst
        rw [List.append_nil] at hdone
        exact .inl ⟨rfl, by rw [contents, hdone]; exact hfirst⟩
    | cons p ps ih =>
        intro done hdone hfirst
        obtain ⟨v, hv⟩ := h.lookup (by rw [hdone]; exact List.mem_append_cons_self)
        have hread : l.read p = .ok v := by rw [Ledger.read, hv]
        by_cases hfit : fits v = true
        · refine .inr ⟨done, p, ps, v, ?_, hdone, hv, hfit, hfirst⟩
          rw [Ledger.scan, hread]
          exact if_pos hfit
        · have hscan : l.scan fits (p :: ps) = l.scan fits ps := by
            rw [Ledger.scan, hread]
            exact if_neg hfit
          rw [hscan]
          refine ih (done ++ [p]) (by rw [hdone, List.append_cons]) fun u hu => ?_
          rw [values_append, values_cons hv] at hu
          obtain hu | hu := List.mem_append.mp hu
          · exact hfirst u hu
          · exact List.mem_singleton.mp hu ▸ Bool.eq_false_iff.mpr hfit
  exact hwalk l.all [] rfl fun _ hu => absurd hu List.not_mem_nil

/-- What goes is freed, and the others stay. -/
theorem sweep (h : l.Listed) (goes : α → Bool) :
    ∃ l', Ledger.sweep goes l.all l = .ok l' ∧ l'.Listed ∧
      l'.contents = l.contents.filter (!goes ·) := by
  have hwalk : ∀ (ps done : List P) (l : Ledger P α), l.Listed → l.all = done ++ ps →
      ∃ l', Ledger.sweep goes ps l = .ok l' ∧ l'.Listed ∧ l'.contents =
        l.values done ++ (l.values ps).filter (!goes ·) := by
    intro ps
    induction ps with
    | nil =>
        intro done l h hdone
        refine ⟨l, rfl, h, ?_⟩
        rw [contents, hdone, List.append_nil]
        exact (List.append_nil _).symm
    | cons p ps ih =>
        intro done l h hdone
        obtain ⟨v, hv⟩ := h.lookup (by rw [hdone]; exact List.mem_append_cons_self)
        have hread : l.read p = .ok v := by rw [Ledger.read, hv]
        by_cases hgoes : goes v = true
        · obtain ⟨l₁, hremove, h₁, hall, hsame, -⟩ := h.remove_split hdone
          obtain ⟨l', hl', h', hcontents⟩ := ih done l₁ h₁ hall
          refine ⟨l', ?_, h', ?_⟩
          · simp only [Ledger.sweep, hread, hgoes, if_true, hremove, hl']
          · rw [hcontents, values_cons hv, List.filter_cons_of_neg (by simp [hgoes]),
              values_congr fun q hq => hsame q (List.mem_append_left _ hq),
              values_congr fun q hq => hsame q (List.mem_append_right _ hq)]
        · obtain ⟨l', hl', h', hcontents⟩ := ih (done ++ [p]) l h (by rw [hdone, List.append_cons])
          refine ⟨l', ?_, h', ?_⟩
          · simp only [Ledger.sweep, hread, hgoes, hl']
            rfl
          · rw [hcontents, values_append, values_cons hv, values_cons hv,
              List.filter_cons_of_pos (by simp [hgoes]), List.append_assoc]
            rfl
  exact hwalk l.all [] l h rfl

end Ledger.Listed

end Pfsnitch.Lib
