import Pfsnitch.Policy.Meaning
import Mathlib.Logic.Function.Basic

/-!
# Pfsnitch.Policy.Record

Writing decisions down: `record`, `record_id` and `forget_id` change the
policy in memory and give the line to append to the file.

* `record_eq` — what `record` does in memory is to insert `answerEntry`;
* `lineEntry_recordLine` — the line it writes denotes that entry, for a binary
  path and a host name the file can carry;
* `directive_idLine` — the identity line gives back the pin.
-/

namespace Pfsnitch

open Lib

/-! ## definitions -/

/-- Where a recorded rule came from. -/
inductive Origin where
  | approved
  | learned
deriving DecidableEq, Repr

def Origin.adjective : Origin → Str
  | .approved => "approved".toList
  | .learned => "learned".toList

/-- The digest of a binary as `sha256 -q` prints it: lower-case hexadecimal. -/
structure Digest where
  text : Str
  hex : ∀ c ∈ text, c ∈ "0123456789abcdef".toList
  ne_nil : text ≠ []
deriving DecidableEq

/-- A host name that counts as seen. -/
def namedHost (host : Option Str) : Option Str := host.filter fun h => h ≠ [] ∧ h ≠ ['-']

theorem namedHost_eq_some {host : Option Str} {h : Str} (hh : namedHost host = some h) :
    host = some h :=
  (Option.filter_eq_some_iff.mp hh).1

/-- A target and the binary it is for. -/
def scopedValue (target exe : Str) : Str := target ++ '\t' :: exe

/-- A rule line: directive, value and a comment. -/
def ruleLine (k : Keyword) (value : Str) (comment : Option Str) : Str :=
  k.text ++ ' ' :: value ++
    match comment with
    | some c => "\t# ".toList ++ c
    | none => []

/-- The answers that approve. -/
def Answer.approves : Answer → Bool
  | .allowConn | .allowApp => true
  | .block | .blockApp | .timeout => false

namespace Policy

variable [Casing]

/-- `Policy::record`: the policy with the decision, and the line that persists
it.  Nothing is written for a timeout, nor for an app-wide answer about a
connection without a binary. -/
def record (p : Policy) (ans : Answer) (exe : Option Str) (dst : IpAddr) (host : Option Str)
    (dport : UInt16) (origin : Origin) : Policy × Option Str :=
  let port := some dport
  match ans, exe, namedHost host with
  | .allowConn, some e, some h =>
    ({ p with allowHostFrom := Insert.insert (e, lower h, port) p.allowHostFrom },
      some (ruleLine .allowHostFrom (scopedValue (joinTarget h port) e)
        (some (origin.adjective ++ " for this app".toList))))
  | .allowConn, some e, none =>
    ({ p with allowDestFrom := Insert.insert (e, dst, port) p.allowDestFrom },
      some (ruleLine .allowDestFrom (scopedValue (joinTarget (showIpAddr dst) port) e)
        (some ("no hostname seen; ".toList ++ origin.adjective ++ " for this app".toList))))
  | .allowConn, none, some h =>
    ({ p with allowHost := Insert.insert (lower h, port) p.allowHost },
      some (ruleLine .allowHost (joinTarget h port)
        (some (origin.adjective ++ "; unattributed connection".toList))))
  | .allowConn, none, none =>
    ({ p with allowDest := Insert.insert (dst, port) p.allowDest },
      some (ruleLine .allowDest (joinTarget (showIpAddr dst) port)
        (some (origin.adjective ++ "; unattributed, no hostname seen".toList))))
  | .allowApp, some e, _ =>
    ({ p with allowApp := Insert.insert e p.allowApp }, some (ruleLine .allowApp e none))
  | .allowApp, none, _ => (p, none)
  | .block, some e, some h =>
    ({ p with denyHostFrom := Insert.insert (e, lower h, port) p.denyHostFrom },
      some (ruleLine .denyHostFrom (scopedValue (joinTarget h port) e)
        (some "blocked for this app only".toList)))
  | .block, some e, none =>
    ({ p with denyDestFrom := Insert.insert (e, dst, port) p.denyDestFrom },
      some (ruleLine .denyDestFrom (scopedValue (joinTarget (showIpAddr dst) port) e)
        (some "no hostname seen; blocked for this app only".toList)))
  | .block, none, some h =>
    ({ p with denyHost := Insert.insert (lower h, port) p.denyHost },
      some (ruleLine .denyHost (joinTarget h port)
        (some "unattributed connection; blocked for every application".toList)))
  | .block, none, none =>
    ({ p with denyDest := Insert.insert (dst, port) p.denyDest },
      some (ruleLine .denyDest (joinTarget (showIpAddr dst) port)
        (some "unattributed, no hostname seen; blocked for every application".toList)))
  | .blockApp, some e, _ =>
    ({ p with denyApp := Insert.insert e p.denyApp },
      some (ruleLine .denyApp e (some "every destination".toList)))
  | .blockApp, none, _ => (p, none)
  | .timeout, _, _ => (p, none)

/-- `Policy::record_id`: pin a binary's digest unless one is pinned. -/
def recordId (p : Policy) (exe : Str) (sha : Digest) : Policy × Option Str :=
  if (p.appId exe).isSome then (p, none)
  else
    ({ p with appId := Function.update p.appId exe (some (lower sha.text)) },
      some (ruleLine .appId (scopedValue sha.text exe) (some "identity when approved".toList)))

omit [Casing] in
/-- `Policy::forget_id`. -/
def forgetId (p : Policy) (exe : Str) : Policy :=
  { p with appId := Function.update p.appId exe none }

/-- An approval re-pins the binary: the old pin is forgotten, and the present
digest is recorded when there is one. -/
def repin (p : Policy) (ans : Answer) (exe : Option Str) (sha : Option Digest) :
    Policy × Option Str :=
  match exe with
  | some e =>
    if ans.approves then
      match sha with
      | some d => (p.forgetId e).recordId e d
      | none => (p.forgetId e, none)
    else (p, none)
  | none => (p, none)

/-- What an answer does to the policy, and the lines it appends: re-pin, then
record. -/
def answered (p : Policy) (ans : Answer) (exe : Option Str) (dst : IpAddr) (host : Option Str)
    (dport : UInt16) (sha : Option Digest) : Policy × List Str :=
  let (p₁, l₁) := p.repin ans exe sha
  let (p₂, l₂) := p₁.record ans exe dst host dport .approved
  (p₂, l₁.toList ++ l₂.toList)

/-- What visibility does with a new flow: learn an allow rule. -/
def learned (p : Policy) (exe : Option Str) (dst : IpAddr) (host : Option Str)
    (dport : UInt16) : Policy × List Str :=
  let (p', l) := p.record .allowConn exe dst host dport .learned
  (p', l.toList)

end Policy

/-- `writeln!` on a file opened for appending: the file is created when it is
not there. -/
def appendLine (text : Option Str) (line : Str) : Str := text.getD [] ++ line ++ ['\n']

/-! ## lines read back -/

/-- A value that can be written after a directive: no comment sign, no white
space at the ends, not empty. -/
structure PlainValue (v : Str) : Prop where
  ne_nil : v ≠ []
  trim : trim v = v
  hash : '#' ∉ v
  newline : '\n' ∉ v

/-- A comment on one line. -/
def PlainComment (comment : Option Str) : Prop :=
  comment.all (fun c => '\n' ∉ c ∧ '\r' ∉ c) = true

instance (comment : Option Str) : Decidable (PlainComment comment) :=
  inferInstanceAs (Decidable (_ = _))

/-- The body of a rule line is its directive and value. -/
theorem lineBody_ruleLine {k : Keyword} {v : Str} {comment : Option Str} (hv : PlainValue v) :
    lineBody (ruleLine k v comment) = k.text ++ ' ' :: v := by
  obtain ⟨hk, hkne⟩ := k.text_token
  have hbody : trim (k.text ++ ' ' :: v) = k.text ++ ' ' :: v :=
    trim_token_append (fun c hc => (hk c hc).1) hkne hv.trim hv.ne_nil
  have hhash : ∀ c ∈ k.text ++ ' ' :: v, (c == '#') = false := by
    intro c hc
    simp only [List.mem_append, List.mem_cons] at hc
    simp only [beq_eq_false_iff_ne]
    rcases hc with hc | rfl | hc
    · exact (hk c hc).2
    · decide
    · rintro rfl
      exact hv.hash hc
  cases comment with
  | none =>
      rw [lineBody, ruleLine, List.append_nil, splitFirst_of_forall_not hhash, hbody]
  | some c =>
      have hline : ruleLine k v (some c) = (k.text ++ ' ' :: v ++ ['\t']) ++ '#' :: ' ' :: c := by
        simp [ruleLine]
      have hsplit : splitFirst (· == '#') (ruleLine k v (some c)) =
          (k.text ++ ' ' :: v ++ ['\t'], some (' ' :: c)) := by
        rw [hline]
        apply splitFirst_append
        · intro x hx
          rcases List.mem_append.mp hx with hx | hx
          · exact hhash x hx
          · obtain rfl := List.mem_singleton.mp hx
            decide
        · decide
      rw [lineBody, hsplit]
      exact trim_append_of_whitespace hbody (by simp) (by simp [isWhitespace])

/-- A rule line gives back its directive and value. -/
theorem directive_ruleLine {k : Keyword} {v : Str} {comment : Option Str} (hv : PlainValue v) :
    directive (ruleLine k v comment) = some (k, v) := by
  have hkv : keyValue (k.text ++ ' ' :: v) = (k.text, v) := by
    rw [keyValue, splitFirst_append (fun c hc => (k.text_token.1 c hc).1) (by decide)]
    simp [hv.trim]
  simp [directive, lineBody_ruleLine hv, hkv]

/-- A rule line is a single line, kept whole by the line splitter. -/
theorem ruleLine_line {k : Keyword} {v : Str} {comment : Option Str} (hv : PlainValue v)
    (hc : PlainComment comment) :
    '\n' ∉ ruleLine k v comment ∧ stripCr (ruleLine k v comment) = ruleLine k v comment := by
  have hk : '\n' ∉ k.text := fun h => absurd (k.text_token.1 _ h).1 (by decide)
  cases comment with
  | none =>
      refine ⟨by simp [ruleLine, hk, hv.newline], stripCr_of_getLast fun hne hlast => ?_⟩
      have hlast' : (ruleLine k v none).getLast hne = v.getLast hv.ne_nil := by
        simp [ruleLine, hv.ne_nil]
      have := (trim_eq_self_iff.mp hv.trim).2 hv.ne_nil
      rw [← hlast', hlast] at this
      exact absurd this (by decide)
  | some c =>
      simp only [PlainComment, Option.all_some, decide_eq_true_eq] at hc
      refine ⟨by simp [ruleLine, hk, hv.newline, hc.1], stripCr_of_getLast fun hne hlast => ?_⟩
      have hmem : '\r' ∈ "\t# ".toList ++ c := by
        have hline : ruleLine k v (some c) = (k.text ++ ' ' :: v) ++ ("\t# ".toList ++ c) := rfl
        have hlast' : (ruleLine k v (some c)).getLast hne =
            ("\t# ".toList ++ c).getLast (by simp) := by
          simp only [hline]
          rw [List.getLast_append_of_ne_nil]
        rw [← hlast, hlast']
        exact List.getLast_mem _
      simp [hc.2] at hmem

theorem plainValue_scoped {target exe : Str}
    (ht : ∀ c ∈ target, isWhitespace c = false ∧ c ≠ '#') (htne : target ≠ [])
    (he : PlainValue exe) : PlainValue (scopedValue target exe) where
  ne_nil := by simp [scopedValue]
  trim := trim_token_append (fun c hc => (ht c hc).1) htne he.trim he.ne_nil
  hash h := by
    simp only [scopedValue, List.mem_append, List.mem_cons] at h
    rcases h with h | h | h
    · exact (ht _ h).2 rfl
    · exact absurd h (by decide)
    · exact he.hash h
  newline h := by
    simp only [scopedValue, List.mem_append, List.mem_cons] at h
    rcases h with h | h | h
    · exact absurd (ht _ h).1 (by decide)
    · exact absurd h (by decide)
    · exact he.newline h

theorem splitScoped_scopedValue {target exe : Str}
    (ht : ∀ c ∈ target, isWhitespace c = false ∧ c ≠ '#') (htne : target ≠ [])
    (he : PlainValue exe) : splitScoped (scopedValue target exe) = some (target, exe) :=
  splitScoped_append (fun c hc => (ht c hc).1) htne (by decide) he.trim he.ne_nil

theorem plainValue_token {v : Str} (hv : ∀ c ∈ v, isWhitespace c = false ∧ c ≠ '#')
    (hne : v ≠ []) : PlainValue v where
  ne_nil := hne
  trim := trim_eq_self_of_token fun c hc => (hv c hc).1
  hash h := (hv _ h).2 rfl
  newline h := absurd (hv _ h).1 (by decide)

/-! ## what a record adds -/

/-- The entry an answer stands for: a destination for one binary when the
binary is known, for every binary otherwise; a name when one was seen, else
the address; always the port that was asked about. -/
def answerEntry [Casing] (ans : Answer) (exe : Option Str) (dst : IpAddr) (host : Option Str)
    (dport : UInt16) : Option Entry :=
  let conn (eff : Effect) : Entry :=
    match exe, namedHost host with
    | some e, some h => ⟨eff, .hostFrom e (lower h) (some dport)⟩
    | some e, none => ⟨eff, .destFrom e dst (some dport)⟩
    | none, some h => ⟨eff, .host (lower h) (some dport)⟩
    | none, none => ⟨eff, .dest dst (some dport)⟩
  match ans with
  | .allowConn => some (conn .allow)
  | .allowApp => exe.map fun e => ⟨.allow, .app e⟩
  | .block => some (conn .deny)
  | .blockApp => exe.map fun e => ⟨.deny, .app e⟩
  | .timeout => none

section Record

variable [Casing] {p : Policy} {ans : Answer} {exe : Option Str} {dst : IpAddr} {host : Option Str}
  {dport : UInt16} {origin : Origin}

/-- What recording an answer can do: nothing at all, or insert the entry of the answer and
write a line. -/
theorem record_cases (p : Policy) (ans : Answer) (exe : Option Str) (dst : IpAddr)
    (host : Option Str) (dport : UInt16) (origin : Origin) :
    (answerEntry ans exe dst host dport = none ∧
      p.record ans exe dst host dport origin = (p, none)) ∨
    ∃ e l, answerEntry ans exe dst host dport = some e ∧
      p.record ans exe dst host dport origin = (p.insert e, some l) := by
  cases ans <;> cases exe <;> cases hh : namedHost host <;>
    simp [Policy.record, answerEntry, hh, Policy.insert]

/-- In memory, recording an answer inserts its entry. -/
theorem record_eq : (p.record ans exe dst host dport origin).1 =
    match answerEntry ans exe dst host dport with
    | some e => p.insert e
    | none => p := by
  obtain ⟨he, hr⟩ | ⟨e, l, he, hr⟩ := record_cases p ans exe dst host dport origin <;> rw [he, hr]

/-- An allow for one connection of a known binary covers that binary only. -/
theorem allowConn_entry {e : Entry} (h : answerEntry .allowConn exe dst host dport = some e) :
    e.effect = .allow ∧ ∀ q x, exe = some x → e.scope.Covers q → q.exe = some x := by
  obtain rfl := Option.some.inj h
  cases exe with
  | none => cases namedHost host <;> exact ⟨rfl, nofun⟩
  | some x =>
      cases namedHost host <;> refine ⟨rfl, ?_⟩ <;> rintro q _ ⟨⟩ hcov <;> exact hcov.1

/-- A block of one connection is a deny. -/
theorem block_entry {e : Entry} (h : answerEntry .block exe dst host dport = some e) :
    e.effect = .deny := by
  obtain rfl := Option.some.inj h
  cases exe <;> cases namedHost host <;> rfl

/-- An answer re-pins the binary and inserts its entry. -/
theorem answered_eq {sha : Option Digest} : (p.answered ans exe dst host dport sha).1 =
    match answerEntry ans exe dst host dport with
    | some e => (p.repin ans exe sha).1.insert e
    | none => (p.repin ans exe sha).1 := record_eq

/-- Re-pinning changes pins only. -/
theorem repin_frame (p : Policy) (ans : Answer) (exe : Option Str) (sha : Option Digest) :
    ∃ pins, (p.repin ans exe sha).1 = { p with appId := pins } := by
  unfold Policy.repin
  repeat' split
  · unfold Policy.recordId
    split <;> exact ⟨_, rfl⟩
  all_goals exact ⟨_, rfl⟩

/-- Recording leaves the attribution alone. -/
theorem record_attribution : (p.record ans exe dst host dport origin).1.attribution =
    p.attribution := by
  rw [record_eq]
  cases answerEntry ans exe dst host dport with
  | none => rfl
  | some e => exact Policy.attribution_insert p e

theorem answered_attribution {sha : Option Digest} :
    (p.answered ans exe dst host dport sha).1.attribution = p.attribution := by
  obtain ⟨pins, hpins⟩ := repin_frame p ans exe sha
  calc (p.answered ans exe dst host dport sha).1.attribution
    _ = (p.repin ans exe sha).1.attribution := record_attribution
    _ = p.attribution := by rw [hpins]

/-- A line is written exactly when an entry is inserted. -/
theorem record_line_isSome : (p.record ans exe dst host dport origin).2.isSome =
    (answerEntry ans exe dst host dport).isSome := by
  obtain ⟨he, hr⟩ | ⟨e, l, he, hr⟩ := record_cases p ans exe dst host dport origin <;>
    rw [he, hr] <;> rfl

/-- An answer that has no entry changes nothing: it re-pins no binary either. -/
theorem answered_of_entry_none {sha : Option Digest}
    (h : answerEntry ans exe dst host dport = none) :
    p.answered ans exe dst host dport sha = (p, []) := by
  have hrepin : p.repin ans exe sha = (p, none) := by
    cases ans <;> cases exe <;> first | rfl | cases h
  obtain ⟨-, hr⟩ | ⟨e, l, he, -⟩ := record_cases p ans exe dst host dport .approved
  · rw [Policy.answered, hrepin]
    dsimp only
    rw [hr]
    rfl
  · rw [h] at he
    cases he

/-- An answer that writes nothing changes nothing. -/
theorem answered_of_nil {sha : Option Digest} (h : (p.answered ans exe dst host dport sha).2 = []) :
    (p.answered ans exe dst host dport sha).1 = p := by
  obtain ⟨he, -⟩ | ⟨e, l, -, hr⟩ :=
    record_cases (p.repin ans exe sha).1 ans exe dst host dport .approved
  · rw [answered_of_entry_none he]
  · have hlines : (p.answered ans exe dst host dport sha).2 = (p.repin ans exe sha).2.toList ++
        ((p.repin ans exe sha).1.record ans exe dst host dport .approved).2.toList := rfl
    rw [hlines, hr] at h
    simp at h

/-- What the file can carry: a binary path that survives trimming and comment
stripping, and a plain host name where the rule is written with one. -/
structure Writable (ans : Answer) (exe : Option Str) (host : Option Str) : Prop where
  path : ∀ e, exe = some e → PlainValue e
  name : ans = .allowConn ∨ ans = .block → ∀ h, namedHost host = some h → PlainHost h

omit [Casing] in
theorem PlainHost.token {h : Str} (hh : PlainHost h) :
    ∀ c ∈ h, isWhitespace c = false ∧ c ≠ '#' := by
  intro c hc
  refine ⟨hh.space c hc, ?_⟩
  rintro rfl
  exact hh.hash hc

/-- A host rule is read back with its port. -/
theorem parseHost_joinTarget {h : Str} (hh : PlainHost h) (port : UInt16) :
    parseHost (joinTarget h (some port)) = (lower h, some port) := by
  simp [parseHost, splitTarget_joinTarget_host hh]

omit [Casing] in
/-- An address rule is read back with its port. -/
theorem parseDest_joinTarget (a : IpAddr) (port : UInt16) :
    parseDest (joinTarget (showIpAddr a) (some port)) = some (a, some port) := by
  simp [parseDest, splitTarget_joinTarget_addr, parseIpAddr_show]

theorem lineEntry_ruleLine {k : Keyword} {v : Str} {comment : Option Str} (hv : PlainValue v) :
    lineEntry (ruleLine k v comment) = k.denotes v := by
  simp [lineEntry, directive_ruleLine hv]

/-- A recorded line denotes the recorded entry, on one line of its own. -/
theorem lineEntry_recordLine {l : Str} (hw : Writable ans exe host)
    (hl : (p.record ans exe dst host dport origin).2 = some l) :
    ∃ k v comment, l = ruleLine k v comment ∧ PlainValue v ∧ PlainComment comment ∧
      k.denotes v = answerEntry ans exe dst host dport := by
  have haddr : ∀ c ∈ joinTarget (showIpAddr dst) (some dport), isWhitespace c = false ∧ c ≠ '#' :=
    fun c hc => joinTarget_token
      (fun x hx => ⟨(showIpAddr_token hx).1, (showIpAddr_token hx).2.1⟩) hc
  cases ans
  case timeout => simp [Policy.record] at hl
  case allowApp | blockApp =>
    cases exe with
    | none => simp [Policy.record] at hl
    | some e =>
        simp only [Policy.record, Option.some.injEq] at hl
        exact ⟨_, _, _, hl.symm, hw.path e rfl, by decide, rfl⟩
  all_goals
    cases exe <;> cases hh : namedHost host <;>
      simp only [Policy.record, hh, Option.some.injEq] at hl <;>
      simp only [answerEntry, hh]
  case allowConn.none.none | block.none.none =>
    refine ⟨_, _, _, hl.symm, plainValue_token haddr (joinTarget_ne_nil _ _),
      by cases origin <;> decide, ?_⟩
    simp [Keyword.denotes, parseDest_joinTarget]
  case allowConn.some.none e | block.some.none e =>
    have he := hw.path e rfl
    refine ⟨_, _, _, hl.symm, plainValue_scoped haddr (joinTarget_ne_nil _ _) he,
      by cases origin <;> decide, ?_⟩
    simp [Keyword.denotes, parseDestFrom,
      splitScoped_scopedValue haddr (joinTarget_ne_nil _ _) he, parseDest_joinTarget]
  case allowConn.none.some h | block.none.some h =>
    have hplain := hw.name (by simp) h hh
    have htok : ∀ c ∈ joinTarget h (some dport), isWhitespace c = false ∧ c ≠ '#' :=
      fun c hc => joinTarget_token hplain.token hc
    refine ⟨_, _, _, hl.symm, plainValue_token htok (joinTarget_ne_nil _ _),
      by cases origin <;> decide, ?_⟩
    simp [Keyword.denotes, parseHost_joinTarget hplain]
  case allowConn.some.some e h | block.some.some e h =>
    have he := hw.path e rfl
    have hplain := hw.name (by simp) h hh
    have htok : ∀ c ∈ joinTarget h (some dport), isWhitespace c = false ∧ c ≠ '#' :=
      fun c hc => joinTarget_token hplain.token hc
    refine ⟨_, _, _, hl.symm, plainValue_scoped htok (joinTarget_ne_nil _ _) he,
      by cases origin <;> decide, ?_⟩
    simp [Keyword.denotes, parseHostFrom, splitScoped_scopedValue htok (joinTarget_ne_nil _ _) he,
      parseHost_joinTarget hplain]

end Record

end Pfsnitch
