import Mathlib.Data.List.AList
import Mathlib.Data.Finset.Insert

/-!
# Pfsnitch.Lib.Claims

Keys that are claimed one after the other, and whom a lookup names.

The first claimant of a key is stored, and a claim by somebody else makes the key
contested; a contested key names nobody.  What is named does not depend on the order of
the claims, only on which claims were made (`Records.find_eq_some_iff`).  A map that
simply stores every claim names the last claimant (`Stores`), which is as good only as
long as nobody shares a key (`Stores.lookup_eq_some_iff`).
-/

namespace Pfsnitch.Lib

universe u v w

/-- The first claimants and the contested keys. -/
structure Claims (κ : Type u) (β : Type v) where
  owner : AList fun _ : κ => β
  contested : Finset κ

namespace Claims

variable {κ : Type u} {β : Type v} {ι : Type w} [DecidableEq κ] [DecidableEq ι] (who : β → ι)

/-- Nothing is claimed. -/
def empty : Claims κ β := ⟨∅, ∅⟩

/-- Claim a key; `who` tells claimants apart. -/
def add (c : Claims κ β) (k : κ) (b : β) : Claims κ β :=
  match c.owner.lookup k with
  | some prev => if who prev ≠ who b then { c with contested := insert k c.contested } else c
  | none => { c with owner := c.owner.insert k b }

/-- The claimant of a key that is not contested. -/
def find (c : Claims κ β) (k : κ) : Option β :=
  if k ∈ c.contested then none else c.owner.lookup k

/-! ## claims that overwrite -/

/-- Every claim is stored, the last one of a key for good. -/
structure Stores (cs : List (κ × β)) (m : AList fun _ : κ => β) : Prop where
  mem : ∀ k b, m.lookup k = some b → (k, b) ∈ cs
  claimed : ∀ k b, (k, b) ∈ cs → (m.lookup k).isSome

variable {cs : List (κ × β)} {m : AList fun _ : κ => β} {k : κ} {b : β}

theorem stores_empty : Stores [] (∅ : AList fun _ : κ => β) where
  mem k b h := by
    rw [AList.lookup_empty] at h
    cases h
  claimed k b h := absurd h List.not_mem_nil

/-- One more claim. -/
theorem Stores.insert (h : Stores cs m) (k : κ) (b : β) :
    Stores (cs ++ [(k, b)]) (m.insert k b) := by
  constructor
  · intro k' b' hl
    by_cases hkk : k' = k
    · subst hkk
      rw [AList.lookup_insert, Option.some.injEq] at hl
      simp [hl]
    · rw [AList.lookup_insert_ne hkk] at hl
      simp [h.mem k' b' hl]
  · intro k' b' hc
    by_cases hkk : k' = k
    · subst hkk
      rw [AList.lookup_insert]
      rfl
    · rw [AList.lookup_insert_ne hkk]
      exact h.claimed k' b' (by simpa [hkk] using hc)

/-- Nobody shares a key: a lookup names the claimant. -/
theorem Stores.lookup_eq_some_iff (h : Stores cs m)
    (hsole : ∀ k b b', (k, b) ∈ cs → (k, b') ∈ cs → b = b') :
    m.lookup k = some b ↔ (k, b) ∈ cs := by
  refine ⟨h.mem k b, fun hb => ?_⟩
  obtain ⟨b', hb'⟩ := Option.isSome_iff_exists.mp (h.claimed k b hb)
  rw [hb', hsole k b' b (h.mem k b' hb') hb]

/-! ## claims that are contested -/

/-- What is stored for the claims `cs`. -/
structure Records (cs : List (κ × β)) (c : Claims κ β) : Prop where
  mem : ∀ k b, c.owner.lookup k = some b → (k, b) ∈ cs
  claimed : ∀ k b, (k, b) ∈ cs → (c.owner.lookup k).isSome
  contested : ∀ k, k ∈ c.contested ↔ ∃ b b', (k, b) ∈ cs ∧ (k, b') ∈ cs ∧ who b ≠ who b'

variable {who} {c : Claims κ β}

omit [DecidableEq ι] in
theorem records_empty : Records who [] (empty : Claims κ β) where
  mem k b h := by
    rw [empty, AList.lookup_empty] at h
    cases h
  claimed k b h := absurd h List.not_mem_nil
  contested k := by simp [empty]

omit [DecidableEq ι] in
theorem Records.stores (h : Records who cs c) : Stores cs c.owner := ⟨h.mem, h.claimed⟩

omit [DecidableEq κ] [DecidableEq ι] in
theorem mem_claims {k' : κ} {b' : β} :
    (k', b') ∈ cs ++ [(k, b)] ↔ (k', b') ∈ cs ∨ k' = k ∧ b' = b := by
  simp

omit [DecidableEq ι] in
/-- The first claim of a key. -/
theorem Records.first (h : Records who cs c) (hk : c.owner.lookup k = none) :
    Records who (cs ++ [(k, b)]) { c with owner := c.owner.insert k b } := by
  have hfresh : ∀ b', (k, b') ∉ cs := by
    intro b' hb'
    have hsome := h.claimed k b' hb'
    rw [hk] at hsome
    cases hsome
  have hinsert := h.stores.insert k b
  refine ⟨hinsert.mem, hinsert.claimed, fun k' => ?_⟩
  rw [h.contested]
  constructor
  · rintro ⟨x, y, hx, hy, hne⟩
    exact ⟨x, y, mem_claims.mpr (.inl hx), mem_claims.mpr (.inl hy), hne⟩
  · rintro ⟨x, y, hx, hy, hne⟩
    rw [mem_claims] at hx hy
    -- the new claim is the only one of its key
    obtain hx | ⟨rfl, rfl⟩ := hx
    · obtain hy | ⟨rfl, rfl⟩ := hy
      · exact ⟨x, y, hx, hy, hne⟩
      · exact absurd hx (hfresh x)
    · obtain hy | ⟨-, rfl⟩ := hy
      · exact absurd hy (hfresh y)
      · exact absurd rfl hne

omit [DecidableEq ι] in
/-- A key that is claimed again keeps its first claimant. -/
theorem Records.stores_again {prev : β} (h : Records who cs c)
    (hk : c.owner.lookup k = some prev) : Stores (cs ++ [(k, b)]) c.owner := by
  refine ⟨fun k' b' hl => mem_claims.mpr (.inl (h.mem k' b' hl)), fun k' b' hc => ?_⟩
  obtain hc | ⟨rfl, -⟩ := mem_claims.mp hc
  · exact h.claimed k' b' hc
  · rw [hk]
    rfl

omit [DecidableEq ι] in
/-- A claim by somebody else. -/
theorem Records.contest {prev : β} (h : Records who cs c) (hk : c.owner.lookup k = some prev)
    (hne : who prev ≠ who b) :
    Records who (cs ++ [(k, b)]) { c with contested := insert k c.contested } := by
  have hagain : Stores (cs ++ [(k, b)]) c.owner := h.stores_again hk
  refine ⟨hagain.mem, hagain.claimed, fun k' => ?_⟩
  rw [Finset.mem_insert, h.contested]
  constructor
  · rintro (rfl | ⟨x, y, hx, hy, hxy⟩)
    · exact ⟨prev, b, mem_claims.mpr (.inl (h.mem _ _ hk)), mem_claims.mpr (.inr ⟨rfl, rfl⟩), hne⟩
    · exact ⟨x, y, mem_claims.mpr (.inl hx), mem_claims.mpr (.inl hy), hxy⟩
  · rintro ⟨x, y, hx, hy, hxy⟩
    by_cases hkk : k' = k
    · exact .inl hkk
    · exact .inr ⟨x, y, (mem_claims.mp hx).resolve_right fun heq => hkk heq.1,
        (mem_claims.mp hy).resolve_right fun heq => hkk heq.1, hxy⟩

omit [DecidableEq ι] in
/-- A claim by the one who is stored. -/
theorem Records.again {prev : β} (h : Records who cs c) (hk : c.owner.lookup k = some prev)
    (hsame : who prev = who b) : Records who (cs ++ [(k, b)]) c := by
  have hagain : Stores (cs ++ [(k, b)]) c.owner := h.stores_again hk
  refine ⟨hagain.mem, hagain.claimed, fun k' => ?_⟩
  rw [h.contested]
  constructor
  · rintro ⟨x, y, hx, hy, hxy⟩
    exact ⟨x, y, mem_claims.mpr (.inl hx), mem_claims.mpr (.inl hy), hxy⟩
  · rintro ⟨x, y, hx, hy, hxy⟩
    -- the stored claimant stands for the new claim
    have hstand : ∀ z, (k', z) ∈ cs ++ [(k, b)] → ∃ z', (k', z') ∈ cs ∧ who z' = who z := by
      intro z hz
      obtain hz | ⟨rfl, rfl⟩ := mem_claims.mp hz
      · exact ⟨z, hz, rfl⟩
      · exact ⟨prev, h.mem _ _ hk, hsame⟩
    obtain ⟨x', hx', hxid⟩ := hstand x hx
    obtain ⟨y', hy', hyid⟩ := hstand y hy
    exact ⟨x', y', hx', hy', hxid ▸ hyid ▸ hxy⟩

/-- One more claim. -/
theorem Records.add (h : Records who cs c) (k : κ) (b : β) :
    Records who (cs ++ [(k, b)]) (c.add who k b) := by
  unfold Claims.add
  cases hk : c.owner.lookup k with
  | none => exact h.first hk
  | some prev =>
      dsimp only
      split
      · rename_i hne
        exact h.contest hk hne
      · rename_i hsame
        exact h.again hk (not_not.mp hsame)

omit [DecidableEq ι] in
/-- Whoever is named claims the key, and nobody else does. -/
theorem Records.sole (h : Records who cs c) (hfind : c.find k = some b) :
    (k, b) ∈ cs ∧ ∀ b', (k, b') ∈ cs → who b' = who b := by
  unfold find at hfind
  split at hfind
  · cases hfind
  · rename_i hk
    have hb := h.mem k b hfind
    refine ⟨hb, fun b' hb' => ?_⟩
    by_contra hne
    exact hk ((h.contested k).mpr ⟨b', b, hb', hb, hne⟩)

omit [DecidableEq ι] in
/-- A lookup names the sole claimant of the key. -/
theorem Records.find_eq_some_iff (h : Records who cs c)
    (hinj : ∀ x ∈ cs, ∀ y ∈ cs, who x.2 = who y.2 → x.2 = y.2) :
    c.find k = some b ↔ (k, b) ∈ cs ∧ ∀ b', (k, b') ∈ cs → who b' = who b := by
  refine ⟨h.sole, fun hb => ?_⟩
  obtain ⟨hb, hsole⟩ := hb
  have hk : k ∉ c.contested := by
    rw [h.contested]
    rintro ⟨x, y, hx, hy, hne⟩
    exact hne ((hsole x hx).trans (hsole y hy).symm)
  obtain ⟨b', hb'⟩ := Option.isSome_iff_exists.mp (h.claimed k b hb)
  have hmem := h.mem k b' hb'
  have heq : b' = b := hinj _ hmem _ hb (hsole b' hmem)
  rw [find, if_neg hk, hb', heq]

end Claims

end Pfsnitch.Lib
