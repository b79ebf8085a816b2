import Pfsnitch.Policy.Normal

/-!
# Pfsnitch.Listing

What `rules` lists and what `load` enforces.

The two read the same lines and differ in two places (`lists_in_force_iff`): `load` takes
an `allow-app` or a `deny-host` without a value, which `rules` skips, and `rules` lists a
value that `load` cannot use.
-/

namespace Pfsnitch

open Lib

variable [Casing] {text : Option Str} {raw v : Str} {k : Keyword} {e : Entry} {r : Rule}

/-- What the tools list is what is in force, and nothing else is. -/
structure ListsInForce (text : Option Str) : Prop where
  listed : ∀ e, (Policy.load text).Has e →
    ∃ r ∈ rules text, r.kind = e.keyword.text ∧ r.entry = some e
  enforced : ∀ r ∈ rules text, ∃ e, r.entry = some e ∧ (Policy.load text).Has e

omit [Casing] in
/-- A value that `load` can use: an address where it needs one, and a binary where it needs
one. -/
def Keyword.Usable (k : Keyword) (v : Str) : Prop :=
  match k with
  | .allowDest | .denyDest => (parseIpAddr (splitTarget v).1).isSome
  | .allowHostFrom | .denyHostFrom => (splitScoped v).isSome
  | .allowDestFrom | .denyDestFrom =>
    (splitScoped v).any fun (d, _) => (parseIpAddr (splitTarget d).1).isSome
  | _ => True

/-- No `allow-app` or `deny-app` stands without a value, a host directive does so only
beside a rule for the same empty name, and what is listed can be used. -/
structure Listable (text : Option Str) : Prop where
  app : ∀ l ∈ textLines text, ∀ k, directive l = some (k, []) → k ≠ .allowApp ∧ k ≠ .denyApp
  host : ∀ l ∈ textLines text, ∀ k, directive l = some (k, []) → k = .allowHost ∨ k = .denyHost →
    ∃ r ∈ rules text, r.kind = k.text ∧ parseHost r.value = ([], none)
  usable : ∀ r ∈ rules text, ∀ k : Keyword, r.kind = k.text → k.Usable r.value

/-! ## one line -/

omit [Casing] in
theorem Keyword.mem_KINDS_iff : k.text ∈ KINDS ↔ k.isRule = true := by
  cases k <;> decide

/-- Directives with a usable value, and only they, give an entry. -/
theorem Keyword.denotes_isSome_iff (hk : k.isRule = true) :
    (∃ e, k.denotes v = some e) ↔ k.Usable v := by
  rw [← Option.isSome_iff_exists]
  cases k with
  | default | prompt | appId | mode | attribution => cases hk
  | allowApp | denyApp | allowHost | denyHost => simp [denotes, Usable]
  | allowDest | denyDest => simp [denotes, Usable, parseDest]
  | allowHostFrom | denyHostFrom => simp [denotes, Usable, parseHostFrom]
  | allowDestFrom | denyDestFrom =>
      cases hs : splitScoped v with
      | none => simp [denotes, Usable, parseDestFrom, hs]
      | some x => simp [denotes, Usable, parseDestFrom, parseDest, hs]

omit [Casing] in
theorem mem_rules_iff :
    r ∈ rules text ↔ r.kind ∈ KINDS ∧ ∃ l ∈ textLines text, parseLine l = some r := by
  simp [rules, parsed, and_comm]

/-- A line without a value that gives an entry is one of four. -/
theorem Keyword.denotes_nil (h : k.denotes [] = some e) :
    (k = .allowApp ∨ k = .denyApp) ∨ (k = .allowHost ∨ k = .denyHost) := by
  obtain rfl := keyword_of_denotes h
  obtain ⟨eff, scope⟩ := e
  obtain rfl | rfl : scope = .app [] ∨ scope = .host [] none := scope_of_bare h
  · cases eff <;> decide
  · cases eff <;> decide

/-- A rule that a host directive lists denotes what the directive without a value does
exactly when its host is read as the empty name. -/
theorem entry_host_nil_iff (hk : k = .allowHost ∨ k = .denyHost) (hkind : r.kind = k.text)
    (he : k.denotes [] = some e) : r.entry = some e ↔ parseHost r.value = ([], none) := by
  rw [Rule.entry, hkind, Keyword.ofText_text, Option.bind_some]
  obtain rfl | rfl := hk
  all_goals
    rw [Keyword.denotes, parseHost_nil, Option.some.injEq] at he
    subst he
    simp [Keyword.denotes, Prod.ext_iff]

/-- No rule is listed for the empty path. -/
theorem not_listed_app (hk : k = .allowApp ∨ k = .denyApp) (he : k.denotes [] = some e) :
    ¬ ∃ r ∈ rules text, r.kind = k.text ∧ r.entry = some e := by
  rintro ⟨r, hr, hkind, hentry⟩
  obtain ⟨-, l, -, hparse⟩ := mem_rules_iff.mp hr
  rw [Rule.entry, hkind, Keyword.ofText_text, ← he] at hentry
  refine value_ne_nil_of_parseLine hparse ?_
  obtain rfl | rfl := hk
  · simpa [Keyword.denotes] using hentry
  · simpa [Keyword.denotes] using hentry

/-! ## the result -/

/-- What a listed rule with a usable value denotes is in force. -/
theorem enforced_of_usable (hr : r ∈ rules text)
    (h : ∀ k : Keyword, r.kind = k.text → k.Usable r.value) :
    ∃ e, r.entry = some e ∧ (Policy.load text).Has e := by
  obtain ⟨hkind, l, hl, hparse⟩ := mem_rules_iff.mp hr
  obtain ⟨k, -, hk⟩ := List.mem_map.mp hkind
  have hrule : k.isRule = true := Keyword.mem_KINDS_iff.mp (hk ▸ hkind)
  obtain ⟨e, he⟩ := (Keyword.denotes_isSome_iff hrule).mpr (h k hk.symm)
  have hentry : r.entry = some e := by
    rw [Rule.entry, ← hk, Keyword.ofText_text]
    exact he
  refine ⟨e, hentry, Policy.has_load.mpr ⟨l, hl, ?_⟩⟩
  rw [lineEntry_of_parseLine hparse, hentry]

/-- What a line with a value gives is listed. -/
theorem listed_of_value {l : Str} (hl : l ∈ textLines text) (hd : directive l = some (k, v))
    (he : k.denotes v = some e) (hv : v ≠ []) :
    ∃ r ∈ rules text, r.kind = e.keyword.text ∧ r.entry = some e := by
  obtain rfl := keyword_of_denotes he
  obtain ⟨r, hr, hkind, rfl⟩ := parseLine_of_directive hd hv
  have hrule : e.keyword.isRule = true := by
    obtain ⟨_ | _, _ | _ | _ | _ | _⟩ := e <;> rfl
  refine ⟨r, mem_rules_iff.mpr ⟨hkind ▸ Keyword.mem_KINDS_iff.mpr hrule, l, hl, hr⟩, hkind, ?_⟩
  rw [Rule.entry, hkind, Keyword.ofText_text]
  exact he

/-- **What is listed is what is enforced**, in exactly the files whose directives have values
that `load` can use. -/
theorem lists_in_force_iff (text : Option Str) : ListsInForce text ↔ Listable text := by
  constructor
  · intro h
    have hbare {l : Str} (hl : l ∈ textLines text) {k : Keyword} (hd : directive l = some (k, []))
        {e : Entry} (he : k.denotes [] = some e) :
        ∃ r ∈ rules text, r.kind = k.text ∧ r.entry = some e := by
      obtain rfl := keyword_of_denotes he
      exact h.listed e (Policy.has_load.mpr ⟨l, hl, by rw [lineEntry, hd]; exact he⟩)
    refine ⟨fun l hl k hd => ⟨?_, ?_⟩, fun l hl k hd hk => ?_, fun r hr k hk => ?_⟩
    · rintro rfl
      exact not_listed_app (.inl rfl) rfl (hbare hl hd rfl)
    · rintro rfl
      exact not_listed_app (.inr rfl) rfl (hbare hl hd rfl)
    · have he : ∃ e, k.denotes [] = some e := by
        obtain rfl | rfl := hk <;> exact ⟨_, rfl⟩
      obtain ⟨e, he⟩ := he
      obtain ⟨r, hr, hkind, hentry⟩ := hbare hl hd he
      exact ⟨r, hr, hkind, (entry_host_nil_iff hk hkind he).mp hentry⟩
    · obtain ⟨e, he, -⟩ := h.enforced r hr
      rw [Rule.entry, hk, Keyword.ofText_text] at he
      have hrule : k.isRule = true := Keyword.mem_KINDS_iff.mp (hk ▸ (mem_rules_iff.mp hr).1)
      exact (Keyword.denotes_isSome_iff hrule).mp ⟨e, he⟩
  · intro h
    constructor
    · intro e he
      obtain ⟨l, hl, he⟩ := Policy.has_load.mp he
      obtain ⟨⟨k, v⟩, hd, he⟩ := Option.bind_eq_some_iff.mp he
      by_cases hv : v = []
      · subst hv
        obtain rfl := keyword_of_denotes he
        obtain hk | hk := Keyword.denotes_nil he
        · obtain ⟨hallow, hdeny⟩ := h.app l hl _ hd
          exact absurd hk (not_or.mpr ⟨hallow, hdeny⟩)
        · obtain ⟨r, hr, hkind, hhost⟩ := h.host l hl _ hd hk
          exact ⟨r, hr, hkind, (entry_host_nil_iff hk hkind he).mpr hhost⟩
      · exact listed_of_value hl hd he hv
    · exact fun r hr => enforced_of_usable hr (h.usable r hr)

omit [Casing] in
/-- A bare directive is in force and not listed, and a name where an address belongs is
listed and not in force. -/
theorem lists_in_force_fails :
    letI := asciiCasing
    ¬ ListsInForce (some "allow-app".toList) ∧
      ¬ ListsInForce (some "deny-dest example.com".toList) := by
  let _ := asciiCasing
  constructor
  · intro h
    have hhas : (Policy.load (some "allow-app".toList)).Has ⟨.allow, .app []⟩ :=
      Policy.has_load.mpr ⟨"allow-app".toList, by decide, by decide +kernel⟩
    have hnone : rules (some "allow-app".toList) = [] := by decide +kernel
    obtain ⟨r, hr, -⟩ := h.listed _ hhas
    rw [hnone] at hr
    cases hr
  · intro h
    have hmem : ⟨"deny-dest".toList, "example.com".toList, none⟩ ∈
        rules (some "deny-dest example.com".toList) := by decide +kernel
    obtain ⟨e, he, -⟩ := h.enforced _ hmem
    have hnone : Rule.entry ⟨"deny-dest".toList, "example.com".toList, none⟩ = none := by
      decide +kernel
    rw [hnone] at he
    cases he

end Pfsnitch
