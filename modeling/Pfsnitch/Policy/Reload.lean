import Pfsnitch.Policy.Contents
import Pfsnitch.Lib.Run

/-!
# Pfsnitch.Policy.Reload

What the daemon records and what it reloads.  A *ledger* is the policy in
memory next to the policy file; answers and learned flows change both.  The
daemon appends to whatever bytes are there and reloads them only if they are
text.  From a file that is, as long as each step writes only what the file can
carry (`Ledger.Writes`), the file reloads to the policy in memory
(`reload_agrees`).  A path with a `#` in it is one the file cannot carry
(`reload_moves_permission`).
-/

namespace Pfsnitch

open Lib

/-- The policy in memory and the policy file as it is stored. -/
structure Ledger where
  pol : Policy
  file : Option (List UInt8)

/-- What makes the daemon write: an answer to a prompt, or a flow learned in
visibility.  `sha` is the digest of the binary at that moment, if it can be
computed; `appendOk` tells which lines reach the file. -/
inductive Entered where
  | answered (ans : Answer) (exe : Option Str) (dst : IpAddr) (host : Option Str)
      (dport : UInt16) (sha : Option Digest) (appendOk : Str → Bool)
  | learned (exe : Option Str) (dst : IpAddr) (host : Option Str) (dport : UInt16)
      (appendOk : Str → Bool)

variable [Casing]

namespace Ledger

/-- One answer or learned flow; the appended lines are observable. -/
def step (s : Ledger) : Entered → Option (Ledger × List Str)
  | .answered ans exe dst host dport sha appendOk =>
    let (p, ls) := s.pol.answered ans exe dst host dport sha
    some (⟨p, appendLines appendOk s.file ls⟩, ls)
  | .learned exe dst host dport appendOk =>
    let (p, ls) := s.pol.learned exe dst host dport
    some (⟨p, appendLines appendOk s.file ls⟩, ls)

/-- A step writes only what the file can carry: the path and the host name are
writable, a pin that is forgotten is replaced, and every line reaches the
file. -/
def Writes (s : Ledger) : Entered → Prop
  | .answered ans exe dst host dport sha appendOk =>
    ((answerEntry ans exe dst host dport).isSome → Writable ans exe host) ∧
      (ans.approves = true → ∀ e, exe = some e → sha.isSome ∨ s.pol.appId e = none) ∧
      ∀ l ∈ (s.pol.answered ans exe dst host dport sha).2, appendOk l = true
  | .learned exe dst host dport appendOk =>
    Writable .allowConn exe host ∧
      ∀ l ∈ (s.pol.learned exe dst host dport).2, appendOk l = true

/-- The file is what the daemon would reload. -/
structure Agrees (s : Ledger) : Prop where
  terminated : EndsInNewline s.file
  load : Policy.loadFile s.file = s.pol

end Ledger

/-! ## appending one line -/

/-- Appending a rule line to newline-terminated text loads as one more line. -/
theorem loadFile_appendBytes {file : Option (List UInt8)} {k : Keyword} {v : Str}
    {comment : Option Str} (hfile : EndsInNewline file) (hv : PlainValue v)
    (hc : PlainComment comment) : Policy.loadFile (some (appendBytes file (ruleLine k v comment))) =
      (Policy.loadFile file).apply k v := by
  obtain ⟨text, htext, hterm⟩ := hfile
  obtain ⟨hnl, hcr⟩ := ruleLine_line (k := k) hv hc
  have hlines : textLines (readToString (some (appendBytes file (ruleLine k v comment)))) =
      textLines (readToString file) ++ [ruleLine k v comment] := by
    rw [textLines_of_decode htext, appendBytes, readToString_append, htext, Option.map_some,
      ← List.append_assoc]
    exact (lines_append_line hterm hnl).trans (by rw [hcr])
  simp [Policy.loadFile, Policy.load, hlines, Policy.loadLine, directive_ruleLine hv]

namespace Ledger

/-- Recording an entry the file can carry keeps file and memory together. -/
theorem Agrees.record {p : Policy} {file : Option (List UInt8)} (h : Agrees ⟨p, file⟩) {ans : Answer}
    {exe : Option Str} (dst : IpAddr) {host : Option Str} (dport : UInt16) (origin : Origin)
    (hw : (answerEntry ans exe dst host dport).isSome → Writable ans exe host)
    (appendOk : Str → Bool)
    (hok : ∀ l ∈ (p.record ans exe dst host dport origin).2, appendOk l = true) :
    Agrees ⟨(p.record ans exe dst host dport origin).1,
      appendLines appendOk file (p.record ans exe dst host dport origin).2.toList⟩ := by
  have hsome : (p.record ans exe dst host dport origin).2.isSome =
      (answerEntry ans exe dst host dport).isSome := record_line_isSome
  rw [record_eq]
  cases hl : (p.record ans exe dst host dport origin).2 with
  | none =>
      have hnone : answerEntry ans exe dst host dport = none := by simpa [hl] using hsome.symm
      rw [hnone]
      exact h
  | some l =>
      rw [hl, Option.isSome_some] at hsome
      obtain ⟨e, he⟩ := Option.isSome_iff_exists.mp hsome.symm
      obtain ⟨k, v, comment, rfl, hv, hc, hden⟩ := lineEntry_recordLine (hw hsome.symm) hl
      have hline : appendLines appendOk file [ruleLine k v comment] =
          some (appendBytes file (ruleLine k v comment)) := by
        simp [appendLines, hok _ hl]
      rw [he] at hden ⊢
      rw [Option.toList_some, hline]
      refine ⟨endsInNewline_appendBytes h.terminated _, ?_⟩
      rw [loadFile_appendBytes h.terminated hv hc, h.load, Policy.apply_of_denotes hden]

omit [Casing] in
theorem digest_token (d : Digest) : ∀ c ∈ d.text, isWhitespace c = false ∧ c ≠ '#' :=
  fun c hc => (by decide : ∀ x ∈ "0123456789abcdef".toList, isWhitespace x = false ∧ x ≠ '#') c
    (d.hex c hc)

/-- Re-pinning keeps file and memory together when a digest replaces the
forgotten pin. -/
theorem Agrees.repin {p : Policy} {file : Option (List UInt8)} (h : Agrees ⟨p, file⟩) {ans : Answer}
    {exe : Option Str} {sha : Option Digest}
    (hpath : ans.approves = true → ∀ e, exe = some e → PlainValue e)
    (hsha : ans.approves = true → ∀ e, exe = some e → sha.isSome ∨ p.appId e = none)
    (appendOk : Str → Bool)
    (hok : ∀ l ∈ (p.repin ans exe sha).2, appendOk l = true) :
    Agrees ⟨(p.repin ans exe sha).1, appendLines appendOk file (p.repin ans exe sha).2.toList⟩ := by
  cases exe with
  | none => exact h
  | some e =>
      cases happ : ans.approves with
      | false => simpa [Policy.repin, happ, appendLines] using h
      | true =>
          cases sha with
          | none =>
              -- without a digest the pin is gone from memory: there was none
              have hpin : p.appId e = none := by simpa using hsha happ e rfl
              have hforget : p.forgetId e = p := by
                simp [Policy.forgetId, ← hpin, Function.update_eq_self]
              simpa [Policy.repin, happ, hforget, appendLines] using h
          | some d =>
              have hrepin : p.repin ans (some e) (some d) =
                  ({ p with appId := Function.update p.appId e (some (lower d.text)) },
                    some (ruleLine .appId (scopedValue d.text e)
                      (some "identity when approved".toList))) := by
                simp [Policy.repin, happ, Policy.recordId, Policy.forgetId, Function.update_idem]
              rw [hrepin] at hok ⊢
              have he := hpath happ e rfl
              have hv : PlainValue (scopedValue d.text e) :=
                plainValue_scoped (digest_token d) d.ne_nil he
              have hline : ∀ l, appendOk l = true →
                  appendLines appendOk file [l] = some (appendBytes file l) := by
                intro l hl
                simp [appendLines, hl]
              rw [Option.toList_some, hline _ (hok _ rfl)]
              refine ⟨endsInNewline_appendBytes h.terminated _, ?_⟩
              rw [loadFile_appendBytes h.terminated hv (by decide), h.load]
              simp only [Policy.apply, splitScoped_scopedValue (digest_token d) d.ne_nil he]

/-- A step that writes what the file can carry keeps file and memory together. -/
theorem Agrees.step {s s' : Ledger} {i : Entered} {o : List Str} (h : s.Agrees) (hw : s.Writes i)
    (hstep : s.step i = some (s', o)) : s'.Agrees := by
  cases i with
  | answered ans exe dst host dport sha appendOk =>
      obtain ⟨hwritable, hsha, hok⟩ := hw
      have hpath : ans.approves = true → ∀ e, exe = some e → PlainValue e := by
        intro happ e he
        refine (hwritable ?_).path e he
        cases ans <;> simp_all [Answer.approves, answerEntry]
      have h₁ := Agrees.repin h hpath hsha appendOk
        fun l hl => hok l (by simp [Policy.answered, Option.mem_def.mp hl])
      have h₂ := h₁.record dst dport .approved hwritable appendOk
        fun l hl => hok l (by simp [Policy.answered, Option.mem_def.mp hl])
      obtain rfl : s' = _ := (congrArg Prod.fst (Option.some.inj hstep)).symm
      rw [← appendLines_append] at h₂
      exact h₂
  | learned exe dst host dport appendOk =>
      obtain ⟨hwritable, hok⟩ := hw
      have h₁ := Agrees.record h dst dport .learned (fun _ => hwritable) appendOk
        fun l hl => hok l (by simp [Policy.learned, Option.mem_def.mp hl])
      obtain rfl : s' = _ := (congrArg Prod.fst (Option.some.inj hstep)).symm
      exact h₁

end Ledger

/-- **What the daemon records is what it reloads.**  Starting from a policy
loaded from newline-terminated text, after any run of answers and learned
flows that write only what the file can carry, the file reloads to the policy
in memory, so every query is answered alike. -/
theorem reload_agrees {s s' : Ledger} (hfile : EndsInNewline s.file)
    (hload : s.pol = Policy.loadFile s.file) (hrun : Run Ledger.step Ledger.Writes s s') :
    Policy.loadFile s'.file = s'.pol ∧
      (∀ exe dst host dport, (Policy.loadFile s'.file).decide exe dst host dport =
        s'.pol.decide exe dst host dport) ∧
      ∀ exe, (Policy.loadFile s'.file).expectedId exe = s'.pol.expectedId exe := by
  have hagrees : s'.Agrees := hrun.invariant ⟨hfile, hload.symm⟩ fun _ _ _ _ h hw hs => h.step hw hs
  rw [hagrees.load]
  exact ⟨rfl, fun _ _ _ _ => rfl, fun _ => rfl⟩

omit [Casing] in
/-- An approval for a named host, with a digest to pin, is such a run. -/
theorem reload_agrees_approval :
    letI := asciiCasing
    let file := some (utf8Bytes "default deny\n".toList)
    let s : Ledger := ⟨Policy.loadFile file, file⟩
    let i : Entered := .answered .allowConn (some "/usr/local/bin/app".toList)
      (.v4 ⟨192, 0, 2, 1⟩) (some "Example.com".toList) 443
      (some ⟨"00ff".toList, by decide, by decide⟩) fun _ => true
    ∃ s', s.step i = some (s', [
        "app-id 00ff\t/usr/local/bin/app\t# identity when approved".toList,
        "allow-host-from Example.com:443\t/usr/local/bin/app\t# approved for this app".toList]) ∧
      Policy.loadFile s'.file = s'.pol := by
  let _ := asciiCasing
  intro file s i
  have hwrites : s.Writes i := by
    refine ⟨fun _ => ⟨?_, ?_⟩, fun _ _ _ => .inl rfl, fun _ _ => rfl⟩
    · rintro e ⟨⟩
      exact ⟨by decide, by decide, by decide, by decide⟩
    · rintro - h ⟨⟩
      exact ⟨by decide, by decide, by decide, by decide⟩
  have hfile : EndsInNewline file :=
    ⟨_, decodeUtf8_utf8Bytes _, .inr ⟨"default deny".toList, rfl⟩⟩
  exact ⟨_, rfl, (reload_agrees (s := s) hfile rfl (Run.single (i := i) hwrites rfl)).1⟩

omit [Casing] in
/-- Approving `/opt/a#b` everywhere writes a line that reloads as an approval
of `/opt/a`. -/
theorem reload_moves_permission :
    letI := asciiCasing
    ¬ ∀ (s s' : Ledger) (ans : Answer) (exe : Option Str) (dst : IpAddr) (host : Option Str)
      (dport : UInt16) (sha : Option Digest) (o : List Str),
      EndsInNewline s.file → s.pol = Policy.loadFile s.file →
      (∀ h, host = some h → ∀ c ∈ h, isWhitespace c = false ∧ c ≠ '#' ∧ c ≠ ':') →
      s.step (.answered ans exe dst host dport sha fun _ => true) = some (s', o) →
      ∀ q : Query, (Policy.loadFile s'.file).decide q.exe q.dst q.host q.dport =
        s'.pol.decide q.exe q.dst q.host q.dport := by
  let _ := asciiCasing
  intro h
  have hq := h ⟨Policy.loadFile (some []), some []⟩ _ .allowApp (some "/opt/a#b".toList)
    (.v4 ⟨192, 0, 2, 1⟩) none 443 (some ⟨"00ff".toList, by decide, by decide⟩) _
    ⟨[], rfl, .inl rfl⟩ rfl (by simp) rfl ⟨some "/opt/a".toList, .v4 ⟨192, 0, 2, 1⟩, none, 443⟩
  exact absurd hq (by decide +kernel)

end Pfsnitch
