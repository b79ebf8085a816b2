import Pfsnitch.Policy.Basic
import Mathlib.Data.Finset.Union

/-!
# Pfsnitch.Policy.Decide

The decision cascade (`Policy::decide`) and what it computes.

`Policy.decide` follows the source step by step.  The abstract view is a set
of *entries*, each an effect on a scope; `decide_eq` says that the cascade is
nothing but "a covering deny, else a covering allow, else the default".
-/

namespace Pfsnitch

open Lib

/-! ## matchers -/

/-- `*.example.com` matches any subdomain, and the bare domain too. -/
def patternMatches (rule hostLower : Str) : Bool :=
  if rule = hostLower then true
  else
    match stripPrefix ['*', '.'] rule with
    | some suffix => hostLower == suffix || ('.' :: suffix).isSuffixOf hostLower
    | none => false

/-- Does a rule's port constraint admit this destination port? -/
def portOk (rule : Option UInt16) (dport : UInt16) : Bool :=
  match rule with
  | none => true
  | some p => p == dport

def scopedHostHit (set : Finset (Str × Str × Option UInt16)) (exe hostLower : Str)
    (dport : UInt16) : Bool :=
  decide (∃ r ∈ set, r.1 = exe ∧ portOk r.2.2 dport ∧ patternMatches r.2.1 hostLower)

def scopedDestHit (set : Finset (Str × IpAddr × Option UInt16)) (exe : Str) (dst : IpAddr)
    (dport : UInt16) : Bool :=
  decide (∃ r ∈ set, r.1 = exe ∧ r.2.1 = dst ∧ portOk r.2.2 dport)

def hostMatches [Casing] (set : Finset Target) (host : Str) (dport : UInt16) : Bool :=
  decide (∃ r ∈ set, portOk r.2 dport ∧ patternMatches r.1 (lower host))

def destMatches (set : Finset (IpAddr × Option UInt16)) (dst : IpAddr) (dport : UInt16) : Bool :=
  decide (∃ r ∈ set, r.1 = dst ∧ portOk r.2 dport)

/-! ## the cascade -/

namespace Policy

/-- `Policy::decide`.  Every deny set is asked before any allow set; scoped
rules and app rules need a binary, host rules need a name. -/
protected def decide [Casing] (p : Policy) (exe : Option Str) (dst : IpAddr) (host : Option Str)
    (dport : UInt16) : Verdict :=
  if exe.any fun e => scopedDestHit p.denyDestFrom e dst dport then .deny
  else if exe.any fun e => host.any fun h => scopedHostHit p.denyHostFrom e (lower h) dport then
    .deny
  else if host.any fun h => hostMatches p.denyHost h dport then .deny
  else if destMatches p.denyDest dst dport then .deny
  else if exe.any fun e => e ∈ p.denyApp then .deny
  else if exe.any fun e => scopedDestHit p.allowDestFrom e dst dport then .allow
  else if exe.any fun e => host.any fun h => scopedHostHit p.allowHostFrom e (lower h) dport then
    .allow
  else if exe.any fun e => e ∈ p.allowApp then .allow
  else if host.any fun h => hostMatches p.allowHost h dport then .allow
  else if destMatches p.allowDest dst dport then .allow
  else p.default.getD .ask

end Policy

/-! ## entries: what a rule says -/

inductive Effect where
  | allow
  | deny
deriving DecidableEq, Repr

/-- What a rule is about. -/
inductive Scope where
  | app (exe : Str)
  | host (pat : Str) (port : Option UInt16)
  | dest (addr : IpAddr) (port : Option UInt16)
  | hostFrom (exe pat : Str) (port : Option UInt16)
  | destFrom (exe : Str) (addr : IpAddr) (port : Option UInt16)
deriving DecidableEq, Repr

/-- One rule: an effect on a scope. -/
structure Entry where
  effect : Effect
  scope : Scope
deriving DecidableEq, Repr

/-- A question put to the policy. -/
structure Query where
  exe : Option Str
  dst : IpAddr
  host : Option Str
  dport : UInt16
deriving DecidableEq, Repr

/-- A host pattern covers a name, whatever the name's letter case. -/
def HostCovers [Casing] (pat : Str) (host : Option Str) : Prop :=
  ∃ h, host = some h ∧ patternMatches pat (lower h) = true

/-- A scope covers a query: the binary, the destination and the port agree,
and what the scope names is known. -/
def Scope.Covers [Casing] (q : Query) : Scope → Prop
  | .app exe => q.exe = some exe
  | .host pat port => HostCovers pat q.host ∧ portOk port q.dport
  | .dest addr port => q.dst = addr ∧ portOk port q.dport
  | .hostFrom exe pat port => q.exe = some exe ∧ HostCovers pat q.host ∧ portOk port q.dport
  | .destFrom exe addr port => q.exe = some exe ∧ q.dst = addr ∧ portOk port q.dport

/-- Scopes that name a binary. -/
def Scope.Scoped : Scope → Prop
  | .app _ | .hostFrom .. | .destFrom .. => True
  | .host .. | .dest .. => False

namespace Policy

/-- Is the entry one of the policy's? -/
def Has (p : Policy) (e : Entry) : Prop :=
  match e with
  | ⟨.allow, .app exe⟩ => exe ∈ p.allowApp
  | ⟨.deny, .app exe⟩ => exe ∈ p.denyApp
  | ⟨.allow, .host pat port⟩ => (pat, port) ∈ p.allowHost
  | ⟨.deny, .host pat port⟩ => (pat, port) ∈ p.denyHost
  | ⟨.allow, .dest addr port⟩ => (addr, port) ∈ p.allowDest
  | ⟨.deny, .dest addr port⟩ => (addr, port) ∈ p.denyDest
  | ⟨.allow, .hostFrom exe pat port⟩ => (exe, pat, port) ∈ p.allowHostFrom
  | ⟨.deny, .hostFrom exe pat port⟩ => (exe, pat, port) ∈ p.denyHostFrom
  | ⟨.allow, .destFrom exe addr port⟩ => (exe, addr, port) ∈ p.allowDestFrom
  | ⟨.deny, .destFrom exe addr port⟩ => (exe, addr, port) ∈ p.denyDestFrom

/-- Some entry with the effect covers the query. -/
def Covers [Casing] (p : Policy) (eff : Effect) (q : Query) : Prop :=
  ∃ s, p.Has ⟨eff, s⟩ ∧ s.Covers q

end Policy

/-! ## the cascade, by entries -/

/-- What "a covering deny, else a covering allow, else the default" means for a verdict. -/
structure Settles (denied allowed : Prop) (fallback v : Verdict) : Prop where
  deny : denied → v = .deny
  allow : ¬ denied → allowed → v = .allow
  default : ¬ denied → ¬ allowed → v = fallback

theorem settles_ite {d a : Bool} {denied allowed : Prop} {fallback : Verdict}
    (hd : denied ↔ d = true) (ha : allowed ↔ a = true) :
    Settles denied allowed fallback (if d then .deny else if a then .allow else fallback) where
  deny h := if_pos (hd.mp h)
  allow hn h := by rw [if_neg (hd.not.mp hn), if_pos (ha.mp h)]
  default hn hn' := by rw [if_neg (hd.not.mp hn), if_neg (ha.not.mp hn')]

theorem ite_or_merge {a b : Bool} {x y : Verdict} :
    (if a then x else if b then x else y) = if a || b then x else y := by
  cases a <;> rfl

section Matchers

variable [Casing] {q : Query}

theorem any_scopedDestHit {set : Finset (Str × IpAddr × Option UInt16)} :
    (q.exe.any fun e => scopedDestHit set e q.dst q.dport) = true ↔
      ∃ exe addr port, (exe, addr, port) ∈ set ∧ (Scope.destFrom exe addr port).Covers q := by
  simp only [Option.any_eq_true, scopedDestHit, decide_eq_true_eq, Prod.exists, Scope.Covers]
  constructor
  · rintro ⟨e, hexe, e', addr, port, hmem, rfl, rfl, hport⟩
    exact ⟨e', q.dst, port, hmem, hexe, rfl, hport⟩
  · rintro ⟨e, addr, port, hmem, hexe, hdst, hport⟩
    exact ⟨e, hexe, e, addr, port, hmem, rfl, hdst.symm, hport⟩

theorem any_scopedHostHit {set : Finset (Str × Str × Option UInt16)} :
    (q.exe.any fun e => q.host.any fun h => scopedHostHit set e (lower h) q.dport) = true ↔
      ∃ exe pat port, (exe, pat, port) ∈ set ∧ (Scope.hostFrom exe pat port).Covers q := by
  simp only [Option.any_eq_true, scopedHostHit, decide_eq_true_eq, Prod.exists, Scope.Covers,
    HostCovers]
  constructor
  · rintro ⟨e, hexe, h, hhost, e', pat, port, hmem, rfl, hport, hpat⟩
    exact ⟨e', pat, port, hmem, hexe, ⟨h, hhost, hpat⟩, hport⟩
  · rintro ⟨e, pat, port, hmem, hexe, ⟨h, hhost, hpat⟩, hport⟩
    exact ⟨e, hexe, h, hhost, e, pat, port, hmem, rfl, hport, hpat⟩

theorem any_hostMatches {set : Finset Target} :
    (q.host.any fun h => hostMatches set h q.dport) = true ↔
      ∃ pat port, (pat, port) ∈ set ∧ (Scope.host pat port).Covers q := by
  simp only [Option.any_eq_true, hostMatches, decide_eq_true_eq, Prod.exists, Scope.Covers,
    HostCovers]
  constructor
  · rintro ⟨h, hhost, pat, port, hmem, hport, hpat⟩
    exact ⟨pat, port, hmem, ⟨h, hhost, hpat⟩, hport⟩
  · rintro ⟨pat, port, hmem, ⟨h, hhost, hpat⟩, hport⟩
    exact ⟨h, hhost, pat, port, hmem, hport, hpat⟩

theorem destMatches_iff {set : Finset (IpAddr × Option UInt16)} :
    destMatches set q.dst q.dport = true ↔
      ∃ addr port, (addr, port) ∈ set ∧ (Scope.dest addr port).Covers q := by
  simp only [destMatches, decide_eq_true_eq, Prod.exists, Scope.Covers]
  constructor
  · rintro ⟨addr, port, hmem, rfl, hport⟩
    exact ⟨q.dst, port, hmem, rfl, hport⟩
  · rintro ⟨addr, port, hmem, hdst, hport⟩
    exact ⟨addr, port, hmem, hdst.symm, hport⟩

theorem any_mem_app {set : Finset Str} :
    (q.exe.any fun e => e ∈ set) = true ↔ ∃ exe, exe ∈ set ∧ (Scope.app exe).Covers q := by
  simp only [Option.any_eq_true, decide_eq_true_eq, Scope.Covers]
  exact ⟨fun ⟨e, hexe, hmem⟩ => ⟨e, hmem, hexe⟩, fun ⟨e, hmem, hexe⟩ => ⟨e, hexe, hmem⟩⟩

theorem Policy.covers_iff {p : Policy} {eff : Effect} :
    p.Covers eff q ↔
      (∃ exe addr port, p.Has ⟨eff, .destFrom exe addr port⟩ ∧
        (Scope.destFrom exe addr port).Covers q) ∨
      (∃ exe pat port, p.Has ⟨eff, .hostFrom exe pat port⟩ ∧
        (Scope.hostFrom exe pat port).Covers q) ∨
      (∃ pat port, p.Has ⟨eff, .host pat port⟩ ∧ (Scope.host pat port).Covers q) ∨
      (∃ addr port, p.Has ⟨eff, .dest addr port⟩ ∧ (Scope.dest addr port).Covers q) ∨
      (∃ exe, p.Has ⟨eff, .app exe⟩ ∧ (Scope.app exe).Covers q) := by
  constructor
  · rintro ⟨s, hs, hc⟩
    cases s with
    | destFrom exe addr port => exact .inl ⟨exe, addr, port, hs, hc⟩
    | hostFrom exe pat port => exact .inr (.inl ⟨exe, pat, port, hs, hc⟩)
    | host pat port => exact .inr (.inr (.inl ⟨pat, port, hs, hc⟩))
    | dest addr port => exact .inr (.inr (.inr (.inl ⟨addr, port, hs, hc⟩)))
    | app exe => exact .inr (.inr (.inr (.inr ⟨exe, hs, hc⟩)))
  · rintro (⟨_, _, _, h⟩ | ⟨_, _, _, h⟩ | ⟨_, _, h⟩ | ⟨_, _, h⟩ | ⟨_, h⟩) <;> exact ⟨_, h⟩

/-- The cascade settles a query by its entries. -/
theorem Policy.decide_settles (p : Policy) (q : Query) :
    Settles (p.Covers .deny q) (p.Covers .allow q) (p.default.getD .ask)
      (p.decide q.exe q.dst q.host q.dport) := by
  unfold Policy.decide
  -- the five deny steps become one test, and so do the five allow steps
  rw [ite_or_merge, ite_or_merge, ite_or_merge, ite_or_merge, ite_or_merge, ite_or_merge,
    ite_or_merge, ite_or_merge]
  apply settles_ite <;> rw [Policy.covers_iff] <;>
    simp only [Bool.or_eq_true, or_assoc, any_scopedDestHit, any_scopedHostHit, any_hostMatches,
      destMatches_iff, any_mem_app, Policy.Has]
  -- the allow steps ask for the binary before the machine-wide sets
  have perm : ∀ a b c d e : Prop, (a ∨ b ∨ c ∨ d ∨ e) ↔ (a ∨ b ∨ e ∨ c ∨ d) := by tauto
  exact perm _ _ _ _ _

/-- Scoped rules and app rules cover nothing when the binary is unknown. -/
theorem Scope.Scoped.not_covers {s : Scope} (hs : s.Scoped) (hexe : q.exe = none) :
    ¬ s.Covers q := by
  cases s <;> simp_all [Scope.Scoped, Scope.Covers]

end Matchers

/-! ## inserting an entry -/

namespace Policy

/-- The policy with one more entry. -/
def insert (p : Policy) (e : Entry) : Policy :=
  match e with
  | ⟨.allow, .app exe⟩ => { p with allowApp := Insert.insert exe p.allowApp }
  | ⟨.deny, .app exe⟩ => { p with denyApp := Insert.insert exe p.denyApp }
  | ⟨.allow, .host pat port⟩ => { p with allowHost := Insert.insert (pat, port) p.allowHost }
  | ⟨.deny, .host pat port⟩ => { p with denyHost := Insert.insert (pat, port) p.denyHost }
  | ⟨.allow, .dest addr port⟩ => { p with allowDest := Insert.insert (addr, port) p.allowDest }
  | ⟨.deny, .dest addr port⟩ => { p with denyDest := Insert.insert (addr, port) p.denyDest }
  | ⟨.allow, .hostFrom exe pat port⟩ =>
    { p with allowHostFrom := Insert.insert (exe, pat, port) p.allowHostFrom }
  | ⟨.deny, .hostFrom exe pat port⟩ =>
    { p with denyHostFrom := Insert.insert (exe, pat, port) p.denyHostFrom }
  | ⟨.allow, .destFrom exe addr port⟩ =>
    { p with allowDestFrom := Insert.insert (exe, addr, port) p.allowDestFrom }
  | ⟨.deny, .destFrom exe addr port⟩ =>
    { p with denyDestFrom := Insert.insert (exe, addr, port) p.denyDestFrom }

/-- Inserting adds that entry and no other. -/
theorem has_insert (p : Policy) (e f : Entry) : (p.insert e).Has f ↔ f = e ∨ p.Has f := by
  rcases e with ⟨_ | _, _ | _ | _ | _ | _⟩ <;> rcases f with ⟨_ | _, _ | _ | _ | _ | _⟩ <;>
    simp [insert, Has]

section Settings

variable (p : Policy) (e : Entry)

@[simp] theorem default_insert : (p.insert e).default = p.default := by
  rcases e with ⟨_ | _, _ | _ | _ | _ | _⟩ <;> rfl

@[simp] theorem appId_insert : (p.insert e).appId = p.appId := by
  rcases e with ⟨_ | _, _ | _ | _ | _ | _⟩ <;> rfl

@[simp] theorem mode_insert : (p.insert e).mode = p.mode := by
  rcases e with ⟨_ | _, _ | _ | _ | _ | _⟩ <;> rfl

@[simp] theorem attribution_insert : (p.insert e).attribution = p.attribution := by
  rcases e with ⟨_ | _, _ | _ | _ | _ | _⟩ <;> rfl

end Settings

/-- A new entry covers a query, or the old ones do. -/
theorem covers_insert [Casing] {p : Policy} {e : Entry} {eff : Effect} {q : Query} :
    (p.insert e).Covers eff q ↔ (e.effect = eff ∧ e.scope.Covers q) ∨ p.Covers eff q := by
  constructor
  · rintro ⟨s, hs, hc⟩
    rcases (has_insert p e _).mp hs with rfl | hs
    · exact .inl ⟨rfl, hc⟩
    · exact .inr ⟨s, hs, hc⟩
  · rintro (⟨rfl, hc⟩ | ⟨s, hs, hc⟩)
    · exact ⟨e.scope, (has_insert p e _).mpr (.inl rfl), hc⟩
    · exact ⟨s, (has_insert p e _).mpr (.inr hs), hc⟩

/-- With one more allow, a query is allowed when no deny covers it and the new
entry does or it was allowed before. -/
theorem decide_insert_allow [Casing] {p : Policy} {e : Entry} {q : Query}
    (heff : e.effect = .allow) :
    (p.insert e).decide q.exe q.dst q.host q.dport = .allow ↔
      ¬ p.Covers .deny q ∧ (e.scope.Covers q ∨ p.decide q.exe q.dst q.host q.dport = .allow) := by
  have hold := p.decide_settles q
  have hnew := (p.insert e).decide_settles q
  rw [default_insert] at hnew
  have hdeny : (p.insert e).Covers .deny q ↔ p.Covers .deny q := by
    rw [covers_insert, heff]
    simp
  have hallow : (p.insert e).Covers .allow q ↔ e.scope.Covers q ∨ p.Covers .allow q := by
    rw [covers_insert, heff]
    simp
  rw [hdeny, hallow] at hnew
  by_cases hd : p.Covers .deny q
  · simp [hnew.deny hd, hd]
  · by_cases he : e.scope.Covers q
    · simp [hnew.allow hd (.inl he), hd, he]
    · by_cases ha : p.Covers .allow q
      · simp [hnew.allow hd (.inr ha), hold.allow hd ha, hd]
      · simp [hnew.default hd (not_or.mpr ⟨he, ha⟩), hold.default hd ha, hd, he]

/-- With one more deny, a query is denied when the new entry covers it or it was
denied before. -/
theorem decide_insert_deny [Casing] {p : Policy} {e : Entry} {q : Query}
    (heff : e.effect = .deny) :
    (p.insert e).decide q.exe q.dst q.host q.dport = .deny ↔
      e.scope.Covers q ∨ p.decide q.exe q.dst q.host q.dport = .deny := by
  have hold := p.decide_settles q
  have hnew := (p.insert e).decide_settles q
  rw [default_insert] at hnew
  have hdeny : (p.insert e).Covers .deny q ↔ e.scope.Covers q ∨ p.Covers .deny q := by
    rw [covers_insert, heff]
    simp
  have hallow : (p.insert e).Covers .allow q ↔ p.Covers .allow q := by
    rw [covers_insert, heff]
    simp
  rw [hdeny, hallow] at hnew
  by_cases he : e.scope.Covers q
  · simp [hnew.deny (.inl he), he]
  · by_cases hd : p.Covers .deny q
    · simp [hnew.deny (.inr hd), hold.deny hd]
    · have hno := not_or.mpr ⟨he, hd⟩
      by_cases ha : p.Covers .allow q
      · simp [hnew.allow hno ha, hold.allow hd ha, he]
      · simp [hnew.default hno ha, hold.default hd ha, he]

end Policy

end Pfsnitch
