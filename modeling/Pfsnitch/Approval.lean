import Pfsnitch.Names

/-!
# Pfsnitch.Approval

What an answer changes of later decisions.

An answer inserts one entry, and inserting an entry changes the queries that the
entry covers and that were not settled its way before (`decide_insert_ne_iff`).  The
entry covers the query that was asked (`answer_settles`), and for a plain host name
no query but that one; the entry for a name like `*.example.com` is a wildcard, and
`-` stands for no name (`answer_frame_iff`).
-/

namespace Pfsnitch

open Lib

variable [Casing] {p : Policy} {ans : Answer} {exe : Option Str} {dst : IpAddr} {host : Option Str}
  {dport : UInt16} {origin : Origin} {q : Query}

/-! ## one more entry -/

/-- The verdict of an entry. -/
def Effect.verdict : Effect → Verdict
  | .allow => .allow
  | .deny => .deny

/-- The policy's verdict on a query. -/
def Policy.verdict (p : Policy) (q : Query) : Verdict := p.decide q.exe q.dst q.host q.dport

/-- A query that one more entry with the effect cannot change: it is decided that way,
or, for an allow, a deny covers it. -/
def Policy.SettledFor (p : Policy) (eff : Effect) (q : Query) : Prop :=
  p.verdict q = eff.verdict ∨ eff = .allow ∧ p.Covers .deny q

/-- An entry changes the queries it covers that are not settled its way. -/
theorem Policy.decide_insert_ne_iff {e : Entry} : (p.insert e).verdict q ≠ p.verdict q ↔
    e.scope.Covers q ∧ ¬ p.SettledFor e.effect q := by
  have hold := p.decide_settles q
  have hnew := (p.insert e).decide_settles q
  rw [default_insert] at hnew
  obtain ⟨eff, s⟩ := e
  unfold verdict SettledFor
  by_cases hcov : s.Covers q
  · cases eff with
    | allow =>
        have hdeny : (p.insert ⟨.allow, s⟩).Covers .deny q ↔ p.Covers .deny q := by
          simp [covers_insert]
        by_cases hd : p.Covers .deny q
        · simp [hnew.deny (hdeny.mpr hd), hold.deny hd, hd]
        · have hallow := hnew.allow (hdeny.not.mpr hd) (covers_insert.mpr (.inl ⟨rfl, hcov⟩))
          simp [hallow, hd, hcov, Effect.verdict, verdict, eq_comm]
    | deny =>
        have hdeny := hnew.deny (covers_insert.mpr (.inl ⟨rfl, hcov⟩))
        simp [hdeny, hcov, Effect.verdict, verdict, eq_comm]
  · have hsame : ∀ eff', (p.insert ⟨eff, s⟩).Covers eff' q ↔ p.Covers eff' q := by
      simp [covers_insert, hcov]
    rw [hsame, hsame] at hnew
    simp [hnew.unique hold, hcov]

/-! ## the entry of an answer -/

/-- The effect of an answer that is recorded. -/
def Answer.effect (ans : Answer) : Effect := if ans.approves then .allow else .deny

theorem answerEntry_effect {e : Entry} (he : answerEntry ans exe dst host dport = some e) :
    e.effect = ans.effect := by
  cases ans with
  | allowConn | block =>
      obtain rfl := Option.some.inj he
      cases exe <;> cases namedHost host <;> rfl
  | allowApp | blockApp =>
      obtain ⟨x, rfl, rfl⟩ := Option.map_eq_some_iff.mp he
      rfl
  | timeout => cases he

/-- The entry covers the query that was asked. -/
theorem answerEntry_covers {e : Entry}
    (he : answerEntry ans q.exe q.dst q.host q.dport = some e) : e.scope.Covers q := by
  have hport : portOk (some q.dport) q.dport = true := by simp [portOk]
  cases ans with
  | allowConn | block =>
      obtain rfl := Option.some.inj he
      cases hexe : q.exe with
      | none =>
          cases hh : namedHost q.host with
          | none => exact ⟨rfl, hport⟩
          | some h => exact ⟨⟨h, namedHost_eq_some hh, by simp [patternMatches]⟩, hport⟩
      | some x =>
          cases hh : namedHost q.host with
          | none => exact ⟨hexe, rfl, hport⟩
          | some h => exact ⟨hexe, ⟨h, namedHost_eq_some hh, by simp [patternMatches]⟩, hport⟩
  | allowApp | blockApp =>
      obtain ⟨x, hx, rfl⟩ := Option.map_eq_some_iff.mp he
      exact hx
  | timeout => cases he

/-- An answer about one connection is recorded, and so is an app-wide one about a known
binary. -/
theorem answerEntry_isSome : (answerEntry ans exe dst host dport).isSome =
    match ans with
    | .allowConn | .block => true
    | .allowApp | .blockApp => exe.isSome
    | .timeout => false := by
  cases ans <;> cases exe <;> rfl

/-- An answer settles the question it was asked about: after an approval a query that
was asked is allowed, and after a block any query is denied. -/
theorem answer_settles (p : Policy) (q : Query) (origin : Origin) :
    (p.verdict q = .ask → ∀ ans, ans = .allowConn ∨ ans = .allowApp ∧ q.exe.isSome = true →
      (p.record ans q.exe q.dst q.host q.dport origin).1.verdict q = .allow) ∧
    ∀ ans, ans = .block ∨ ans = .blockApp ∧ q.exe.isSome = true →
      (p.record ans q.exe q.dst q.host q.dport origin).1.verdict q = .deny := by
  have hentry (ans : Answer) (h : (answerEntry ans q.exe q.dst q.host q.dport).isSome = true) :
      ∃ e, (p.record ans q.exe q.dst q.host q.dport origin).1 = p.insert e ∧
        e.effect = ans.effect ∧ e.scope.Covers q := by
    obtain ⟨e, he⟩ := Option.isSome_iff_exists.mp h
    exact ⟨e, by rw [record_eq, he], answerEntry_effect he, answerEntry_covers he⟩
  constructor
  · intro hask ans hans
    have hnodeny : ¬ p.Covers .deny q := by
      intro hd
      have hdeny : p.verdict q = .deny := (p.decide_settles q).deny hd
      rw [hask] at hdeny
      cases hdeny
    obtain rfl | ⟨rfl, hexe⟩ := hans
    · obtain ⟨e, hrec, heff, hcov⟩ := hentry .allowConn rfl
      rw [hrec]
      exact (Policy.decide_insert_allow heff).mpr ⟨hnodeny, .inl hcov⟩
    · obtain ⟨e, hrec, heff, hcov⟩ := hentry .allowApp (answerEntry_isSome.trans hexe)
      rw [hrec]
      exact (Policy.decide_insert_allow heff).mpr ⟨hnodeny, .inl hcov⟩
  · intro ans hans
    obtain rfl | ⟨rfl, hexe⟩ := hans
    · obtain ⟨e, hrec, heff, hcov⟩ := hentry .block rfl
      rw [hrec]
      exact (Policy.decide_insert_deny heff).mpr (.inl hcov)
    · obtain ⟨e, hrec, heff, hcov⟩ := hentry .blockApp (answerEntry_isSome.trans hexe)
      rw [hrec]
      exact (Policy.decide_insert_deny heff).mpr (.inl hcov)

omit [Casing] in
/-- A name in mixed case approved for `/a`, and the dash blocked for everyone. -/
theorem answer_settles_retry :
    letI := asciiCasing
    let q : Query := ⟨some "/a".toList, .v4 ⟨192, 0, 2, 1⟩, some "Example.COM".toList, 443⟩
    let q' : Query := ⟨none, .v4 ⟨192, 0, 2, 1⟩, some ['-'], 443⟩
    (Policy.initial.record .allowConn q.exe q.dst q.host q.dport .approved).1.verdict q = .allow ∧
      (Policy.initial.record .block q'.exe q'.dst q'.host q'.dport .approved).1.verdict q' =
        .deny := by
  let _ := asciiCasing
  intro q q'
  exact ⟨(answer_settles .initial q .approved).1 (by decide) _ (.inl rfl),
    (answer_settles .initial q' .approved).2 _ (.inl rfl)⟩

/-- A query about what was asked.  For one connection: the same port, the same binary
if one is known, and the same host name up to case, or the same address if no name was
given.  App-wide: the same binary. -/
def Asked (ans : Answer) (exe : Option Str) (dst : IpAddr) (host : Option Str) (dport : UInt16)
    (q : Query) : Prop :=
  match ans with
  | .allowConn | .block =>
    q.dport = dport ∧ (exe.isSome = true → q.exe = exe) ∧
      match host with
      | some h => ∃ h', q.host = some h' ∧ lower h' = lower h
      | none => q.dst = dst
  | .allowApp | .blockApp => exe.isSome = true ∧ q.exe = exe
  | .timeout => False

/-- A host name that stands for itself: not a wildcard, and not a text for no name. -/
def LiteralHost (host : Option Str) : Prop :=
  ∀ h, host = some h → h ≠ [] ∧ h ≠ ['-'] ∧ ¬ ['*', '.'] <+: lower h

/-- A query that the recorded rule takes in although it was not asked about. -/
def TakesIn (ans : Answer) (exe : Option Str) (dst : IpAddr) (host : Option Str) (dport : UInt16)
    (q : Query) : Prop :=
  (∃ e, answerEntry ans exe dst host dport = some e ∧ e.scope.Covers q) ∧
    ¬ Asked ans exe dst host dport q

omit [Casing] in
/-- A pattern that is not a wildcard matches itself only. -/
theorem eq_of_patternMatches {rule h : Str} (hrule : ¬ ['*', '.'] <+: rule)
    (hm : patternMatches rule h = true) : rule = h := by
  unfold patternMatches at hm
  split at hm
  · assumption
  · rw [stripPrefix, if_neg (by rwa [List.isPrefixOf_iff_prefix])] at hm
    cases hm

omit [Casing] in
theorem dport_of_portOk (h : portOk (some dport) q.dport = true) : q.dport = dport :=
  (beq_iff_eq.mp h).symm

/-- A literal name takes in nothing but what was asked. -/
theorem LiteralHost.not_takesIn (hlit : ans = .allowConn ∨ ans = .block → LiteralHost host) :
    ¬ TakesIn ans exe dst host dport q := by
  rintro ⟨⟨e, he, hcov⟩, hasked⟩
  apply hasked
  cases ans with
  | allowConn | block =>
      have hlit := hlit (by simp)
      obtain rfl := Option.some.inj he
      cases host with
      | none =>
          cases exe with
          | none => exact ⟨dport_of_portOk hcov.2, by simp, hcov.1⟩
          | some x => exact ⟨dport_of_portOk hcov.2.2, fun _ => hcov.1, hcov.2.1⟩
      | some h =>
          obtain ⟨hne, hdash, hwild⟩ := hlit h rfl
          have hname : namedHost (some h) = some h := by simp [namedHost, hne, hdash]
          simp only [hname] at hcov
          have hhost : HostCovers (lower h) q.host → ∃ h', q.host = some h' ∧ lower h' = lower h := by
            rintro ⟨h', hq, hm⟩
            exact ⟨h', hq, (eq_of_patternMatches hwild hm).symm⟩
          cases exe with
          | none => exact ⟨dport_of_portOk hcov.2, by simp, hhost hcov.1⟩
          | some x => exact ⟨dport_of_portOk hcov.2.2, fun _ => hcov.1, hhost hcov.2.1⟩
  | allowApp | blockApp =>
      obtain ⟨x, rfl, rfl⟩ := Option.map_eq_some_iff.mp he
      exact ⟨rfl, hcov⟩
  | timeout => cases he

/-- An answer changes the verdict on what its rule takes in. -/
theorem record_ne_iff : (p.record ans exe dst host dport origin).1.verdict q ≠ p.verdict q ↔
    (∃ e, answerEntry ans exe dst host dport = some e ∧ e.scope.Covers q) ∧
      ¬ p.SettledFor ans.effect q := by
  rw [record_eq]
  cases he : answerEntry ans exe dst host dport with
  | none => simp
  | some e => simp [Policy.decide_insert_ne_iff, answerEntry_effect he]

/-- An answer changes nothing but what was asked, exactly when the host name stands for
itself, or the other queries that its rule takes in were settled its way already.  A
timeout, and an app-wide answer without a binary, change nothing at all. -/
theorem answer_frame_iff (p : Policy) (ans : Answer) (exe : Option Str) (dst : IpAddr)
    (host : Option Str) (dport : UInt16) (origin : Origin) :
    ((∀ q, (p.record ans exe dst host dport origin).1.verdict q ≠ p.verdict q →
        Asked ans exe dst host dport q) ↔
      (ans = .allowConn ∨ ans = .block → LiteralHost host) ∨
        ∀ q, TakesIn ans exe dst host dport q → p.SettledFor ans.effect q) ∧
    (ans = .timeout ∨ (ans = .allowApp ∨ ans = .blockApp) ∧ exe = none →
      p.record ans exe dst host dport origin = (p, none)) := by
  refine ⟨⟨fun hframe => .inr fun q htakes => ?_, fun hcond q hne => ?_⟩, ?_⟩
  · by_contra hset
    exact htakes.2 (hframe q (record_ne_iff.mpr ⟨htakes.1, hset⟩))
  · obtain ⟨hcov, hset⟩ := record_ne_iff.mp hne
    by_contra hasked
    cases hcond with
    | inl hlit => exact LiteralHost.not_takesIn hlit ⟨hcov, hasked⟩
    | inr hall => exact hset (hall q ⟨hcov, hasked⟩)
  · rintro (rfl | ⟨rfl | rfl, rfl⟩) <;> rfl

omit [Casing] in
/-- A plain name approved for `/a` changes nothing for `/b`. -/
theorem answer_frame_literal :
    letI := asciiCasing
    ∀ q : Query, q.exe = some "/b".toList →
      (Policy.initial.record .allowConn (some "/a".toList) (.v4 ⟨192, 0, 2, 1⟩)
        (some "example.com".toList) 443 .approved).1.verdict q = Policy.initial.verdict q := by
  let _ := asciiCasing
  intro q hexe
  have hlit : LiteralHost (some "example.com".toList) := by
    rintro h ⟨⟩
    decide
  by_contra hne
  have hasked := (answer_frame_iff .initial .allowConn (some "/a".toList) (.v4 ⟨192, 0, 2, 1⟩)
    (some "example.com".toList) 443 .approved).1.mpr (.inl fun _ => hlit) q hne
  exact absurd (hexe.symm.trans (hasked.2.1 rfl)) (by decide)

omit [Casing] in
/-- The DNS answer for `*.example.com` teaches this name; approving it for `/a` opens
every subdomain. -/
theorem answer_frame_wildcard :
    letI := asciiCasing
    ¬ ∀ (p : Policy) (c : DnsCache) (payload : List UInt8) (ans : Answer) (exe : Option Str)
      (dst : IpAddr) (dport : UInt16) (q : Query), ans = .allowConn ∨ ans = .block →
      ((p.record ans exe dst ((c.observe payload 0).nameFor dst) dport .approved).1.verdict q ≠
        p.verdict q) → Asked ans exe dst ((c.observe payload 0).nameFor dst) dport q := by
  let _ := asciiCasing
  intro h
  let payload := answerFor (["*", "example", "com"].map fun l => utf8Bytes l.toList)
  have hname : (DnsCache.empty.observe payload 0).nameFor (.v4 ⟨192, 0, 2, 1⟩) =
      some "*.example.com".toList := by decide
  have hq := h .initial .empty payload .allowConn (some "/a".toList) (.v4 ⟨192, 0, 2, 1⟩) 443
    ⟨some "/a".toList, .v4 ⟨198, 51, 100, 1⟩, some "x.example.com".toList, 443⟩ (.inl rfl)
  rw [hname] at hq
  obtain ⟨-, -, h', hh', hlower⟩ := hq (by decide)
  obtain rfl := Option.some.inj hh'
  exact absurd hlower (by decide)

end Pfsnitch
