import Pfsnitch.Lib.IpAddr

/-!
# Pfsnitch.Policy.Target

Destinations as rules spell them: `host`, `host:port` and `[v6]:port`, and the
scoped form `<destination> <binary>`.  `splitTarget`, `joinTarget` and
`splitScoped` are the three functions of `policy.rs`; the lemmas say that a
target written by `joinTarget` is read back by `splitTarget`, for the hosts a
recorded rule can carry.
-/

namespace Pfsnitch

open Lib

/-- Case folding of host names (`str::to_lowercase`).  The full Unicode table
stays a parameter; on ASCII text it is the ASCII folding. -/
class Casing where
  lower : Str → Str
  lower_ascii : ∀ s : Str, (∀ c ∈ s, c.toNat < 128) → lower s = s.map Char.toLower

export Casing (lower)

/-- Case folding that leaves everything outside ASCII alone. -/
@[reducible] def asciiCasing : Casing where
  lower s := s.map Char.toLower
  lower_ascii _ _ := rfl

/-- What holds of `to_lowercase` beyond ASCII: every character gives at least one, and only
a newline gives a newline. -/
class LawfulCasing [Casing] : Prop where
  lower_ne_nil : ∀ s : Str, s ≠ [] → lower s ≠ []
  newline_mem : ∀ s : Str, '\n' ∈ lower s → '\n' ∈ s

instance : @LawfulCasing asciiCasing :=
  let _ := asciiCasing
  { lower_ne_nil s hs h := hs (List.map_eq_nil_iff.mp h)
    newline_mem s h := by
      obtain ⟨c, hc, hlower⟩ := List.mem_map.mp h
      delta Char.toLower at hlower
      split at hlower
      · rename_i hupper
        have hval : (c.val + 32).toNat = 10 := congrArg Char.toNat hlower
        have hlo : 65 ≤ c.val.toNat := hupper.1
        have hhi : c.val.toNat ≤ 90 := hupper.2
        rw [UInt32.toNat_add, show (32 : UInt32).toNat = 32 from rfl] at hval
        omega
      · exact hlower ▸ hc }

/-- A destination as written in a rule: a name or address, and an optional port. -/
abbrev Target := Str × Option UInt16

/-- The text inside leading brackets and the text after them. -/
def bracketed (s : Str) : Option (Str × Str) :=
  match stripPrefix ['['] s with
  | some rest =>
    match splitFirst (· == ']') rest with
    | (host, some after) => some (host, after)
    | (_, none) => none
  | none => none

/-- `host:port`, when what follows the last colon is a port and no other colon
is left. -/
def hostPort (s : Str) : Option (Str × UInt16) :=
  match splitLast ':' s with
  | some (host, p) =>
    match parseU16 p with
    | some port => if host.count ':' = 0 then some (host, port) else none
    | none => none
  | none => none

/-- Split `host`, `host:port`, or `[v6addr]:port` into its parts. -/
def splitTarget (s : Str) : Target :=
  let s := trim s
  match bracketed s with
  | some (host, after) => (host, (stripPrefix [':'] after).bind parseU16)
  | none =>
    -- a bare IPv6 literal has more than one colon and no brackets: taken whole
    if (parseIpv6 s).isSome then (s, none)
    else
      match hostPort s with
      | some (host, port) => (host, some port)
      | none => (s, none)

/-- Render a target back the way a rule file spells it. -/
def joinTarget (host : Str) (port : Option UInt16) : Str :=
  match port with
  | none => host
  | some p =>
    if (parseIpv6 host).isSome then '[' :: (host ++ ']' :: ':' :: showU16 p)
    else host ++ ':' :: showU16 p

/-- Split a scoped rule value into destination and binary. -/
def splitScoped (v : Str) : Option (Str × Str) :=
  match splitFirst isWhitespace v with
  | (_, none) => none
  | (d, some e) =>
    let dest := trim d
    let exe := trim e
    if dest = [] ∨ exe = [] then none else some (dest, exe)

example : splitTarget "[2606:4700:4700::1111]:853".toList =
    ("2606:4700:4700::1111".toList, some 853) := by decide

example : splitTarget "example.com:https".toList = ("example.com:https".toList, none) := by decide

/-! ## targets read back -/

/-- A host that brackets cannot be mistaken in: it does not open with a `[`
that is closed later. -/
def Unbracketed (h : Str) : Prop := h.head? = some '[' → ']' ∉ h

instance (h : Str) : Decidable (Unbracketed h) := inferInstanceAs (Decidable (_ → _))

/-- A host name a recorded rule can carry: a single token. -/
structure PlainHost (h : Str) : Prop where
  space : ∀ c ∈ h, isWhitespace c = false
  hash : '#' ∉ h
  colon : ':' ∉ h
  unbracketed : Unbracketed h

theorem showU16_token {p : UInt16} {c : Char} (h : c ∈ showU16 p) :
    isWhitespace c = false ∧ c ≠ '#' ∧ c ≠ ':' ∧ c ≠ ']' := by
  have hd := isDigitOf_of_mem_showU16 h
  obtain ⟨hspace, hhash, -, hclose⟩ := isAddrChar_token (isAddrChar_of_isDigitOf hd)
  refine ⟨hspace, hhash, ?_, hclose⟩
  rintro rfl
  exact absurd hd (by decide)

/-- Text that does not open with a bracket is not bracketed. -/
theorem bracketed_of_unbracketed {h p : Str} (hun : Unbracketed h) (hp : ']' ∉ p)
    (hne : p.head? ≠ some '[') : bracketed (h ++ p) = none := by
  cases h with
  | nil =>
      cases p with
      | nil => rfl
      | cons c p =>
          have hc : ¬ '[' = c := fun h => hne (by simp [← h])
          simp [bracketed, stripPrefix, hc]
  | cons c h =>
      by_cases hc : '[' = c
      · subst hc
        have hclose : ']' ∉ h := fun hmem => hun rfl (List.mem_cons_of_mem _ hmem)
        have hsplit : splitFirst (· == ']') (h ++ p) = (h ++ p, none) := by
          apply splitFirst_of_forall_not
          intro x hx
          simp only [beq_eq_false_iff_ne]
          rintro rfl
          exact (List.mem_append.mp hx).elim hclose hp
        simp [bracketed, stripPrefix, hsplit]
      · simp [bracketed, stripPrefix, hc]

theorem bracketed_eq_some_iff {s host after : Str} :
    bracketed s = some (host, after) ↔ s = '[' :: (host ++ ']' :: after) ∧ ']' ∉ host := by
  constructor
  · intro h
    unfold bracketed at h
    split at h
    · rename_i rest hpre
      split at h
      · rename_i host' after' hsplit
        obtain ⟨rfl, rfl⟩ := Prod.mk.inj (Option.some.inj h)
        obtain ⟨hhost, c, hc, rfl⟩ := splitFirst_eq_some_iff.mp hsplit
        obtain rfl : c = ']' := by simpa using hc
        exact ⟨stripPrefix_eq_some hpre, fun hmem => by simpa using hhost _ hmem⟩
      · cases h
    · cases h
  · rintro ⟨rfl, hhost⟩
    have hsplit : splitFirst (· == ']') (host ++ ']' :: after) = (host, some after) :=
      splitFirst_append (fun c hc => by simpa using fun h : c = ']' => hhost (h ▸ hc)) (by simp)
    simp [bracketed, stripPrefix, hsplit]

theorem hostPort_append {h : Str} (hcolon : ':' ∉ h) (p : UInt16) :
    hostPort (h ++ ':' :: showU16 p) = some (h, p) := by
  have hp : ':' ∉ showU16 p := fun hmem => (showU16_token hmem).2.2.1 rfl
  have hcount : h.count ':' = 0 := List.count_eq_zero.mpr hcolon
  simp [hostPort, splitLast_append hp, parseU16_showU16, hcount]

/-- A name without colons does not read as an IPv6 address. -/
theorem parseIpv6_of_count_lt {s : Str} (h : s.count ':' < 2) : parseIpv6 s = none := by
  cases hp : parseIpv6 s with
  | none => rfl
  | some x =>
      have := two_le_count_colon hp
      omega

theorem hostPort_eq_some_iff {s h : Str} {port : UInt16} :
    hostPort s = some (h, port) ↔ ∃ p, s = h ++ ':' :: p ∧ ':' ∉ h ∧ parseU16 p = some port := by
  constructor
  · intro hs
    unfold hostPort at hs
    split at hs
    · rename_i h' p hsplit
      split at hs
      · rename_i port' hp
        split_ifs at hs with hcount
        obtain ⟨rfl, rfl⟩ := Prod.mk.inj (Option.some.inj hs)
        exact ⟨p, (splitLast_eq_some_iff.mp hsplit).1, List.count_eq_zero.mp hcount, hp⟩
      · cases hs
    · cases hs
  · rintro ⟨p, rfl, hcolon, hp⟩
    have hp' : ':' ∉ p := fun hmem => absurd (mem_of_parseU16 hp hmem) (by decide)
    simp [hostPort, splitLast_append hp', hp, List.count_eq_zero.mpr hcolon]

/-- A host without colons is read back, alone and with its port. -/
theorem splitTarget_joinTarget {h : Str} (hcolon : ':' ∉ h) (hun : Unbracketed h)
    (htrim : trim h = h) (port : Option UInt16) : splitTarget (joinTarget h port) = (h, port) := by
  have hcount : h.count ':' = 0 := List.count_eq_zero.mpr hcolon
  have hv6 : parseIpv6 h = none := parseIpv6_of_count_lt (by omega)
  cases port with
  | none =>
      have hbr : bracketed h = none := by
        simpa using bracketed_of_unbracketed (p := []) hun (by simp) (by simp)
      have hport : hostPort h = none := by
        cases hs : hostPort h with
        | none => rfl
        | some x =>
            obtain ⟨p, rfl, -, -⟩ := hostPort_eq_some_iff.mp hs
            simp at hcolon
      simp [joinTarget, splitTarget, htrim, hbr, hv6, hport]
  | some p =>
      have hpcount : (showU16 p).count ':' = 0 :=
        List.count_eq_zero.mpr fun hmem => (showU16_token hmem).2.2.1 rfl
      have hv6' : parseIpv6 (h ++ ':' :: showU16 p) = none := by
        apply parseIpv6_of_count_lt
        rw [List.count_append, List.count_cons_self]
        omega
      have htrim' : trim (h ++ ':' :: showU16 p) = h ++ ':' :: showU16 p :=
        trim_append_cons htrim (by decide) (trim_eq_self_of_token fun c hc => (showU16_token hc).1)
      have hbr : bracketed (h ++ ':' :: showU16 p) = none := by
        apply bracketed_of_unbracketed hun
        · simp only [List.mem_cons, not_or]
          exact ⟨by decide, fun hmem => (showU16_token hmem).2.2.2 rfl⟩
        · simp
      simp [joinTarget, hv6, splitTarget, htrim', hbr, hv6', hostPort_append hcolon p]

/-- A plain host written with its port is read back. -/
theorem splitTarget_joinTarget_host {h : Str} (hh : PlainHost h) (p : UInt16) :
    splitTarget (joinTarget h (some p)) = (h, some p) :=
  splitTarget_joinTarget hh.colon hh.unbracketed (trim_eq_self_of_token hh.space) (some p)

theorem showIpAddr_token {a : IpAddr} {c : Char} (h : c ∈ showIpAddr a) :
    isWhitespace c = false ∧ c ≠ '#' ∧ c ≠ '[' ∧ c ≠ ']' :=
  isAddrChar_token (mem_showIpAddr h)

/-- An address is read back, alone and with its port. -/
theorem splitTarget_joinTarget_addr (a : IpAddr) (port : Option UInt16) :
    splitTarget (joinTarget (showIpAddr a) port) = (showIpAddr a, port) := by
  have htoken : ∀ c ∈ showIpAddr a, isWhitespace c = false ∧ c ≠ '#' ∧ c ≠ '[' ∧ c ≠ ']' :=
    fun c hc => showIpAddr_token hc
  have htrim : trim (showIpAddr a) = showIpAddr a :=
    trim_eq_self_of_token fun c hc => (htoken c hc).1
  cases a with
  | v4 a =>
      have hun : Unbracketed (showIpv4 a) := fun _ h => (htoken _ h).2.2.2 rfl
      exact splitTarget_joinTarget (colon_not_mem_showIpv4 a) hun htrim port
  | v6 a =>
      rw [showIpAddr] at htoken htrim ⊢
      have hv6 : parseIpv6 (showIpv6 a) = some a := parseIpv6_showIpv6 a
      cases port with
      | none =>
          have hbr : bracketed (showIpv6 a) = none := by
            cases h : bracketed (showIpv6 a) with
            | none => rfl
            | some x =>
                have hopen : '[' ∈ showIpv6 a := (bracketed_eq_some_iff.mp h).1 ▸ List.mem_cons_self
                exact absurd rfl (htoken _ hopen).2.2.1
          simp [joinTarget, splitTarget, htrim, hbr, hv6]
      | some p =>
          have htrim' : trim ('[' :: (showIpv6 a ++ ']' :: ':' :: showU16 p)) =
              '[' :: (showIpv6 a ++ ']' :: ':' :: showU16 p) := by
            apply trim_eq_self_of_token
            intro c hc
            simp only [List.mem_append, List.mem_cons] at hc
            rcases hc with rfl | hc | rfl | rfl | hc
            · decide
            · exact (htoken c hc).1
            · decide
            · decide
            · exact (showU16_token hc).1
          have hbr : bracketed ('[' :: (showIpv6 a ++ ']' :: ':' :: showU16 p)) =
              some (showIpv6 a, ':' :: showU16 p) :=
            bracketed_eq_some_iff.mpr ⟨rfl, fun hc => (htoken _ hc).2.2.2 rfl⟩
          have hport : (stripPrefix [':'] (':' :: showU16 p)).bind parseU16 = some p := by
            simp [stripPrefix, parseU16_showU16]
          simp only [joinTarget, hv6, Option.isSome_some, if_true, splitTarget, htrim', hbr, hport]

/-! ## scoped values read back -/

/-- A destination token, one separator and a trimmed binary are told apart. -/
theorem splitScoped_append {d e : Str} {sep : Char} (hd : ∀ c ∈ d, isWhitespace c = false)
    (hdne : d ≠ []) (hsep : isWhitespace sep = true) (he : trim e = e) (hene : e ≠ []) :
    splitScoped (d ++ sep :: e) = some (d, e) := by
  simp [splitScoped, splitFirst_append hd hsep, trim_eq_self_of_token hd, he, hdne, hene]

/-- No character of a target a rule is recorded with is white space or `#`. -/
theorem joinTarget_token {h : Str} {p : UInt16} {c : Char}
    (hh : ∀ x ∈ h, isWhitespace x = false ∧ x ≠ '#') (hc : c ∈ joinTarget h (some p)) :
    isWhitespace c = false ∧ c ≠ '#' := by
  have hport : ∀ x ∈ showU16 p, isWhitespace x = false ∧ x ≠ '#' :=
    fun x hx => ⟨(showU16_token hx).1, (showU16_token hx).2.1⟩
  simp only [joinTarget] at hc
  split_ifs at hc
  · simp only [List.mem_append, List.mem_cons] at hc
    rcases hc with rfl | hc | rfl | rfl | hc
    · decide
    · exact hh c hc
    · decide
    · decide
    · exact hport c hc
  · simp only [List.mem_append, List.mem_cons] at hc
    rcases hc with hc | rfl | hc
    · exact hh c hc
    · decide
    · exact hport c hc

theorem joinTarget_ne_nil (h : Str) (p : UInt16) : joinTarget h (some p) ≠ [] := by
  simp only [joinTarget]
  split_ifs <;> simp

end Pfsnitch
