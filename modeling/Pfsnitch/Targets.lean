import Pfsnitch.Policy.Basic

/-!
# Pfsnitch.Targets

Destinations and their ports.

What `joinTarget` writes, `splitTarget` reads back (`targets_round_trip`).  Of other texts
without a port `splitTarget` gives the whole, white space and brackets around it apart,
unless something follows the brackets (`bad_port_kept_iff`).
-/

namespace Pfsnitch

open Lib

variable {s h : Str}

/-! ## targets that are written -/

/-- The hosts that rules are written for: names without `:`, `[` and white space at their
ends, and addresses. -/
inductive TargetHost : Str → Prop
  | name {h : Str} (hcolon : ':' ∉ h) (hopen : '[' ∉ h) (htrim : trim h = h) : TargetHost h
  | addr (a : IpAddr) : TargetHost (showIpAddr a)

/-- **Targets round-trip**, and those of addresses name the address and the port. -/
theorem targets_round_trip (hh : TargetHost h) (port : Option UInt16) :
    splitTarget (joinTarget h port) = (h, port) ∧
      ∀ a, h = showIpAddr a → parseDest (joinTarget h port) = some (a, port) := by
  have hsplit : splitTarget (joinTarget h port) = (h, port) := by
    cases hh with
    | name hcolon hopen htrim =>
        refine splitTarget_joinTarget hcolon (fun hhead => ?_) htrim port
        exact absurd (List.mem_of_mem_head? hhead) hopen
    | addr a => exact splitTarget_joinTarget_addr a port
  refine ⟨hsplit, ?_⟩
  rintro a rfl
  rw [parseDest, hsplit]
  simp only [parseIpAddr_show, Option.map_some]

/-- An IPv6 address with a port. -/
theorem targets_round_trip_v6 :
    splitTarget "[2606:4700::1111]:853".toList = ("2606:4700::1111".toList, some 853) := by
  let a : Ipv6Addr := ⟨[0x26, 0x06, 0x47, 0, 0, 0, 0, 0, 0, 0, 0, 0, 0, 0, 0x11, 0x11], rfl⟩
  have hshow : showIpAddr (.v6 a) = "2606:4700::1111".toList := by decide +kernel
  have hjoin : joinTarget (showIpAddr (.v6 a)) (some 853) = "[2606:4700::1111]:853".toList := by
    decide +kernel
  rw [← hshow, ← hjoin]
  exact (targets_round_trip (.addr (.v6 a)) (some 853)).1

/-! ## targets that are not -/

/-- All of a text without a port is the host, brackets around it apart. -/
def KeepsText (s : Str) : Prop :=
  (splitTarget s).2 = none →
    s = (splitTarget s).1 ∨ s = '[' :: ((splitTarget s).1 ++ [']'])

/-- A text that ends in a port, after brackets or after a host without them. -/
inductive NamesPort (s : Str) : Prop
  | bracketed {host p : Str} (hs : trim s = '[' :: (host ++ ']' :: ':' :: p)) (hclose : ']' ∉ host)
      (hp : (parseU16 p).isSome)
  | plain {host p : Str} (hs : trim s = host ++ ':' :: p) (hcolon : ':' ∉ host)
      (hun : Unbracketed host) (hp : (parseU16 p).isSome)

/-- What follows brackets is a port exactly when it is a colon and the text of one. -/
theorem portAfter_isSome_iff {after : Str} :
    ((stripPrefix [':'] after).bind parseU16).isSome ↔
      ∃ p, after = ':' :: p ∧ (parseU16 p).isSome := by
  cases hpre : stripPrefix [':'] after with
  | none =>
      simp only [Option.bind_none, Option.isSome_none, Bool.false_eq_true, false_iff]
      rintro ⟨p, rfl, -⟩
      simp [stripPrefix] at hpre
  | some p =>
      obtain rfl := stripPrefix_eq_some hpre
      simp

/-- A host before its port is taken for a bracketed one exactly when it looks like one. -/
theorem bracketed_port_eq_none_iff {host p : Str} (hp : (parseU16 p).isSome) :
    bracketed (host ++ ':' :: p) = none ↔ Unbracketed host := by
  obtain ⟨port, hport⟩ := Option.isSome_iff_exists.mp hp
  have hp' : ']' ∉ p := fun hmem => absurd (mem_of_parseU16 hport hmem) (by decide)
  constructor
  · intro hbr hhead hclose
    cases host with
    | nil => cases hhead
    | cons c host =>
        obtain rfl : c = '[' := by simpa using hhead
        obtain ⟨a, b, rfl, ha⟩ := List.eq_append_cons_of_mem (by simpa using hclose : ']' ∈ host)
        have hshape : '[' :: (a ++ ']' :: b) ++ ':' :: p = '[' :: (a ++ ']' :: (b ++ ':' :: p)) := by
          simp
        rw [hshape, bracketed_eq_some_iff.mpr ⟨rfl, ha⟩] at hbr
        cases hbr
  · intro hun
    exact bracketed_of_unbracketed hun (by simp [hp']) (by simp)

/-- A text in brackets is trimmed. -/
theorem trim_brackets (x : Str) : trim ('[' :: (x ++ [']'])) = '[' :: (x ++ [']']) := by
  refine trim_eq_self_iff.mpr ⟨fun _ => rfl, fun _ => ?_⟩
  rw [List.getLast_cons (by simp), List.getLast_append_of_ne_nil _ (by simp)]
  rfl

/-- A text that is taken whole is kept when it has no white space at its ends. -/
theorem keepsText_whole_iff : (s = trim s ∨ s = '[' :: (trim s ++ [']'])) ↔ trim s = s := by
  constructor
  · rintro (h | h)
    · exact h.symm
    · have htrim := trim_brackets (trim s)
      rwa [← h] at htrim
  · exact fun h => .inl h.symm

/-- A text with something behind its brackets is kept when nothing is. -/
theorem keepsText_bracketed_iff {host after : Str} (hs : trim s = '[' :: (host ++ ']' :: after)) :
    (s = host ∨ s = '[' :: (host ++ [']'])) ↔ trim s = s ∧ after = [] := by
  constructor
  · rintro (h | h)
    · have hle := length_trim_le s
      rw [hs, h] at hle
      simp only [List.length_cons, List.length_append] at hle
      omega
    · have htrim : trim s = s := by
        rw [h]
        exact trim_brackets host
      refine ⟨htrim, ?_⟩
      rw [htrim, h] at hs
      simpa using hs
  · rintro ⟨htrim, rfl⟩
    exact .inr (htrim ▸ hs)

/-- A text that is read as a bracketed one names a port when what follows its brackets does. -/
theorem namesPort_bracketed_iff {host after : Str} (hbr : bracketed (trim s) = some (host, after)) :
    NamesPort s ↔ ((stripPrefix [':'] after).bind parseU16).isSome := by
  rw [portAfter_isSome_iff]
  constructor
  · intro h
    cases h with
    | @bracketed host' p hs hclose hp =>
        have hsame := hbr.symm.trans (bracketed_eq_some_iff.mpr ⟨hs, hclose⟩)
        obtain ⟨-, rfl⟩ := Prod.mk.inj (Option.some.inj hsame)
        exact ⟨p, rfl, hp⟩
    | plain hs _ hun hp =>
        rw [hs, (bracketed_port_eq_none_iff hp).mpr hun] at hbr
        cases hbr
  · rintro ⟨p, rfl, hp⟩
    obtain ⟨hs, hclose⟩ := bracketed_eq_some_iff.mp hbr
    exact .bracketed hs hclose hp

/-- Any other text names a port when it is a host without colons and a port. -/
theorem namesPort_plain_iff (hbr : bracketed (trim s) = none) :
    NamesPort s ↔ (hostPort (trim s)).isSome := by
  constructor
  · intro h
    cases h with
    | bracketed hs hclose _ =>
        rw [hs, bracketed_eq_some_iff.mpr ⟨rfl, hclose⟩] at hbr
        cases hbr
    | plain hs hcolon _ hp =>
        obtain ⟨port, hport⟩ := Option.isSome_iff_exists.mp hp
        rw [hostPort_eq_some_iff.mpr ⟨_, hs, hcolon, hport⟩]
        rfl
  · intro h
    obtain ⟨⟨host, port⟩, hport⟩ := Option.isSome_iff_exists.mp h
    obtain ⟨p, hs, hcolon, hp⟩ := hostPort_eq_some_iff.mp hport
    have hp : (parseU16 p).isSome := by rw [hp]; rfl
    rw [hs] at hbr
    exact .plain hs hcolon ((bracketed_port_eq_none_iff hp).mp hbr) hp

/-- A host without colons and a port are no IPv6 address. -/
theorem parseIpv6_of_hostPort (h : (hostPort s).isSome) : parseIpv6 s = none := by
  obtain ⟨⟨host, port⟩, hport⟩ := Option.isSome_iff_exists.mp h
  obtain ⟨p, rfl, hcolon, hp⟩ := hostPort_eq_some_iff.mp hport
  have hp' : p.count ':' = 0 :=
    List.count_eq_zero.mpr fun hmem => absurd (mem_of_parseU16 hp hmem) (by decide)
  have hhost : host.count ':' = 0 := List.count_eq_zero.mpr hcolon
  apply parseIpv6_of_count_lt
  rw [List.count_append, List.count_cons_self]
  omega

/-- **A malformed port never widens a rule**, in exactly the texts that name a port, or have
no white space at their ends and nothing behind brackets. -/
theorem bad_port_kept_iff (s : Str) : KeepsText s ↔ NamesPort s ∨
    trim s = s ∧ ∀ host after, s = '[' :: (host ++ ']' :: after) → ']' ∉ host → after = [] := by
  rw [KeepsText]
  cases hbr : bracketed (trim s) with
  | some x =>
      obtain ⟨host, after⟩ := x
      have hsplit : splitTarget s = (host, (stripPrefix [':'] after).bind parseU16) := by
        simp only [splitTarget, hbr]
      obtain ⟨hs, hclose⟩ := bracketed_eq_some_iff.mp hbr
      have hlast : (trim s = s ∧ ∀ host after, s = '[' :: (host ++ ']' :: after) → ']' ∉ host →
          after = []) ↔ trim s = s ∧ after = [] := by
        refine and_congr_right fun htrim => ⟨fun h => h host after (htrim ▸ hs) hclose, ?_⟩
        rintro rfl host' after' hs' hclose'
        rw [htrim] at hbr
        have hsame := hbr.symm.trans (bracketed_eq_some_iff.mpr ⟨hs', hclose'⟩)
        exact (Prod.mk.inj (Option.some.inj hsame)).2.symm
      rw [namesPort_bracketed_iff hbr, hlast, hsplit, keepsText_bracketed_iff hs]
      cases (stripPrefix [':'] after).bind parseU16 <;> simp
  | none =>
      have hlast : (trim s = s ∧ ∀ host after, s = '[' :: (host ++ ']' :: after) → ']' ∉ host →
          after = []) ↔ trim s = s := by
        refine and_iff_left_of_imp fun htrim host after hs hclose => ?_
        rw [htrim, bracketed_eq_some_iff.mpr ⟨hs, hclose⟩] at hbr
        cases hbr
      rw [namesPort_plain_iff hbr, hlast]
      cases hport : hostPort (trim s) with
      | some x =>
          have hv6 : parseIpv6 (trim s) = none := parseIpv6_of_hostPort (by rw [hport]; rfl)
          simp [splitTarget, hbr, hv6, hport]
      | none =>
          have hsplit : splitTarget s = (trim s, none) := by
            simp only [splitTarget, hbr, hport, ite_self]
          rw [hsplit]
          simp [keepsText_whole_iff]

/-- What follows the brackets of `[::1]:https` is lost, and with it the limit on the port. -/
theorem bad_port_kept_fails : ¬ ∀ s, KeepsText s := by
  intro h
  have hsplit : splitTarget "[::1]:https".toList = ("::1".toList, none) := by decide
  have hkeeps := h "[::1]:https".toList
  rw [KeepsText, hsplit] at hkeeps
  exact absurd (hkeeps rfl) (by decide)

end Pfsnitch
