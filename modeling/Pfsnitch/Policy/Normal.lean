import Pfsnitch.Policy.Contents

/-!
# Pfsnitch.Policy.Normal

Normal forms and what is meant.

`normalise` gives the spelling under which the tools compare values.  It is a function
of the entry that a value denotes (`normalise_of_denotes`): values that denote the same
are written alike.  The converse fails where a host is written in brackets without being
an IPv6 address: `[a:5]` and `a:5` are written alike.
-/

namespace Pfsnitch

open Lib

/-- The directive that gives an entry. -/
def Entry.keyword : Entry → Keyword
  | ⟨.allow, .app _⟩ => .allowApp
  | ⟨.deny, .app _⟩ => .denyApp
  | ⟨.allow, .host ..⟩ => .allowHost
  | ⟨.deny, .host ..⟩ => .denyHost
  | ⟨.allow, .dest ..⟩ => .allowDest
  | ⟨.deny, .dest ..⟩ => .denyDest
  | ⟨.allow, .hostFrom ..⟩ => .allowHostFrom
  | ⟨.deny, .hostFrom ..⟩ => .denyHostFrom
  | ⟨.allow, .destFrom ..⟩ => .allowDestFrom
  | ⟨.deny, .destFrom ..⟩ => .denyDestFrom

/-- What a rule is about, as the tools write it. -/
def Scope.spelling : Scope → Str
  | .app exe => exe
  | .host pat port => joinTarget pat port
  | .dest addr port => joinTarget (showIpAddr addr) port
  | .hostFrom exe pat port => joinTarget pat port ++ ' ' :: exe
  | .destFrom exe addr port => joinTarget (showIpAddr addr) port ++ ' ' :: exe

variable [Casing] {k : Keyword} {v raw : Str} {e : Entry} {r : Rule}

/-- The entry that a rule of the file denotes, if any. -/
def Rule.entry (r : Rule) : Option Entry := (Keyword.ofText r.kind).bind (·.denotes r.value)

/-- The tools take two rules for the same: they are of one kind and written alike. -/
def Rule.alike (r r' : Rule) : Bool :=
  r'.kind == r.kind && normalise r'.kind r'.value == normalise r.kind r.value

theorem lineEntry_of_parseLine (h : parseLine raw = some r) : lineEntry raw = r.entry := by
  rw [lineEntry, directive_of_parseLine h, Rule.entry]
  cases Keyword.ofText r.kind <;> rfl

theorem keyword_of_denotes (h : k.denotes v = some e) : e.keyword = k := by
  cases k <;> simp only [Keyword.denotes, Option.map_eq_some_iff, Option.some.injEq,
    reduceCtorEq] at h
  case allowApp | denyApp | allowHost | denyHost => subst h; rfl
  all_goals
    obtain ⟨x, -, rfl⟩ := h
    rfl

omit [Casing] in
theorem normaliseDest_of_parseDest {d : IpAddr × Option UInt16} (h : parseDest v = some d) :
    normaliseDest v = some (joinTarget (showIpAddr d.1) d.2) := by
  obtain ⟨addr, haddr, rfl⟩ := Option.map_eq_some_iff.mp h
  rw [normaliseDest]
  exact congrArg (Option.map _) haddr

/-- The normal form is a function of what is denoted. -/
theorem normalise_of_denotes (h : k.denotes v = some e) :
    normalise k.text v = e.scope.spelling := by
  rw [normalise, Keyword.ofText_text]
  cases k <;> simp only [Keyword.denotes, Option.map_eq_some_iff, Option.some.injEq,
    reduceCtorEq] at h
  case allowApp | denyApp | allowHost | denyHost => subst h; rfl
  case allowDest | denyDest =>
    obtain ⟨d, hd, rfl⟩ := h
    simp only [normaliseDest_of_parseDest hd]
    rfl
  case allowHostFrom | denyHostFrom =>
    obtain ⟨x, hx, rfl⟩ := h
    obtain ⟨d, hd, rfl⟩ := Option.map_eq_some_iff.mp hx
    simp only [hd]
    rfl
  case allowDestFrom | denyDestFrom =>
    obtain ⟨x, hx, rfl⟩ := h
    obtain ⟨d, hd, hx⟩ := Option.bind_eq_some_iff.mp hx
    obtain ⟨a, ha, rfl⟩ := Option.map_eq_some_iff.mp hx
    simp only [hd, normaliseDest_of_parseDest ha]
    rfl

theorem parseHost_nil : parseHost [] = ([], none) := by
  have hlower : lower [] = [] := Casing.lower_ascii [] (by simp)
  have hsplit : splitTarget [] = ([], none) := by decide
  rw [parseHost, hsplit]
  exact congrArg (·, none) hlower

/-- A bare directive denotes the empty path, the empty name or nothing. -/
theorem scope_of_bare (h : k.denotes [] = some e) :
    e.scope = .app [] ∨ e.scope = .host [] none := by
  have hscoped : splitScoped [] = none := rfl
  have hdest : parseDest [] = none := by decide
  cases k <;> simp only [Keyword.denotes, parseHost_nil, hdest, parseHostFrom, parseDestFrom,
    hscoped, Option.map_none, Option.bind_none, reduceCtorEq, Option.some.injEq] at h
  case allowApp | denyApp => exact .inl (h ▸ rfl)
  case allowHost | denyHost => exact .inr (h ▸ rfl)

/-- Rules that denote the same are taken for the same. -/
theorem Rule.alike_of_entry {r r' : Rule} (h : r.entry = some e) (h' : r'.entry = some e) :
    r.alike r' = true := by
  obtain ⟨k, hk, hd⟩ := Option.bind_eq_some_iff.mp h
  obtain ⟨k', hk', hd'⟩ := Option.bind_eq_some_iff.mp h'
  obtain rfl := (keyword_of_denotes hd').symm.trans (keyword_of_denotes hd)
  have htext := Keyword.text_of_ofText hk
  have htext' := Keyword.text_of_ofText hk'
  rw [alike, ← htext, ← htext', normalise_of_denotes hd, normalise_of_denotes hd']
  simp

theorem Rule.alike_trans {r r' r'' : Rule} (h : r.alike r' = true) (h' : r'.alike r'' = true) :
    r.alike r'' = true := by
  simp only [alike, Bool.and_eq_true, beq_iff_eq] at h h' ⊢
  exact ⟨h'.1.trans h.1, h'.2.trans h.2⟩

omit [Casing] in
/-- Two hosts that are written alike and are not the same. -/
example :
    letI := asciiCasing
    normalise Keyword.denyHost.text "[a:5]".toList = normalise Keyword.denyHost.text "a:5".toList ∧
      Keyword.denyHost.denotes "[a:5]".toList ≠ Keyword.denyHost.denotes "a:5".toList := by
  decide +kernel

/-! ## no newline comes from nowhere -/

section

variable {c : Char} {s : Str}

omit [Casing] in
theorem mem_of_bracketed {host after : Str} (h : bracketed s = some (host, after)) (hc : c ∈ host) :
    c ∈ s := by
  rw [(bracketed_eq_some_iff.mp h).1]
  simp [hc]

omit [Casing] in
theorem mem_of_hostPort {host : Str} {port : UInt16} (h : hostPort s = some (host, port))
    (hc : c ∈ host) : c ∈ s := by
  obtain ⟨p, rfl, -, -⟩ := hostPort_eq_some_iff.mp h
  exact List.mem_append_left _ hc

omit [Casing] in
theorem mem_of_mem_splitTarget (h : c ∈ (splitTarget s).1) : c ∈ s := by
  apply mem_of_mem_trim
  rw [splitTarget] at h
  cases hbr : bracketed (trim s) with
  | some x =>
      simp only [hbr] at h
      exact mem_of_bracketed hbr h
  | none =>
      simp only [hbr] at h
      split at h
      · exact h
      · cases hport : hostPort (trim s) with
        | none =>
            simp only [hport] at h
            exact h
        | some x =>
            simp only [hport] at h
            exact mem_of_hostPort hport h

omit [Casing] in
theorem mem_of_mem_splitScoped {d e : Str} (h : splitScoped s = some (d, e)) :
    (c ∈ d → c ∈ s) ∧ (c ∈ e → c ∈ s) := by
  unfold splitScoped at h
  split at h
  · cases h
  · rename_i d' e' hsplit
    simp only at h
    split at h
    · cases h
    · obtain ⟨rfl, rfl⟩ := Prod.mk.inj (Option.some.inj h)
      constructor
      · intro hc
        have hmem := mem_of_mem_trim hc
        refine (not_of_mem_splitFirst (p := isWhitespace) ?_).1
        rw [hsplit]
        exact hmem
      · intro hc
        exact mem_of_splitFirst_eq_some (by rw [hsplit]) (mem_of_mem_trim hc)

omit [Casing] in
theorem mem_joinTarget {host : Str} {port : Option UInt16} (h : c ∈ joinTarget host port)
    (hc : isWhitespace c = true) : c ∈ host := by
  cases port with
  | none => exact h
  | some p =>
      have hport : c ∉ showU16 p := fun hmem => by simp [(showU16_token hmem).1] at hc
      have hne : c ≠ '[' ∧ c ≠ ']' ∧ c ≠ ':' := by
        refine ⟨?_, ?_, ?_⟩ <;> rintro rfl <;> exact absurd hc (by decide)
      rw [joinTarget] at h
      split at h <;> simpa [hport, hne] using h

theorem newline_normaliseHost [LawfulCasing] (h : '\n' ∈ normaliseHost s) : '\n' ∈ s :=
  mem_of_mem_splitTarget (LawfulCasing.newline_mem _ (mem_joinTarget h (by decide)))

omit [Casing] in
theorem newline_normaliseDest {d : Str} (h : normaliseDest s = some d) : '\n' ∉ d := by
  intro hmem
  obtain ⟨addr, -, rfl⟩ := Option.map_eq_some_iff.mp h
  have haddr := (showIpAddr_token (mem_joinTarget hmem (by decide))).1
  exact absurd haddr (by decide)

/-- A value without a newline has a normal form without one. -/
theorem newline_normalise [LawfulCasing] {kind : Str} (h : '\n' ∈ normalise kind s) : '\n' ∈ s := by
  unfold normalise at h
  split at h
  · exact newline_normaliseHost h
  · exact newline_normaliseHost h
  all_goals try exact h
  case h_3 | h_4 =>
    split at h
    · rename_i d e hscoped
      rw [List.mem_append, List.mem_cons] at h
      obtain h | h | h := h
      · exact (mem_of_mem_splitScoped hscoped).1 (newline_normaliseHost h)
      · exact absurd h (by decide)
      · exact (mem_of_mem_splitScoped hscoped).2 h
    · exact h
  case h_5 | h_6 =>
    split at h
    · rename_i d e hscoped
      split at h
      · rename_i d' hdest
        rw [List.mem_append, List.mem_cons] at h
        obtain h | h | h := h
        · exact absurd h (newline_normaliseDest hdest)
        · exact absurd h (by decide)
        · exact (mem_of_mem_splitScoped hscoped).2 h
      · exact h
    · exact h
  case h_7 | h_8 =>
    cases hdest : normaliseDest s with
    | none =>
        rw [hdest] at h
        exact h
    | some d =>
        rw [hdest] at h
        exact absurd h (newline_normaliseDest hdest)

end

end Pfsnitch
