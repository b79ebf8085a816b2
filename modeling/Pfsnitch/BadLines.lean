import Pfsnitch.Policy.Contents

/-!
# Pfsnitch.BadLines

A bad line of the policy file.

The parser goes on after a line that it cannot use, so the line might as well not be
there.  A line of a file is deleted from its bytes: where the bytes of a line are no
text, the whole file is not read, and the policy is that of an absent file
(`bad_line_harmless_iff`).
-/

namespace Pfsnitch

open Lib

variable [Casing]

/-- Lines that give the policy of an empty file. -/
structure SayNothing (ls : List Str) : Prop where
  entry : ∀ l ∈ ls, lineEntry l = none
  prompt : ∀ l ∈ ls, linePrompt l = none
  pin : ∀ exe, ∀ l ∈ ls, linePin exe l = none
  mode : ∀ l ∈ ls, lineMode l = none
  attribution : ∀ l ∈ ls, lineAttribution l = none
  default : lastDefault ls = .ask

/-- Deleting a bad line changes nothing: the rest is no text either; or the line is no
text, and the rest says nothing; or the line is text, and gives no entry (only a bare
`allow-app` or `deny-app` does) or one that the rest gives as well. -/
def Harmless (line rest : List UInt8) : Prop :=
  match decodeUtf8 line, decodeUtf8 rest with
  | _, none => True
  | none, some text => SayNothing (lines text)
  | some raw, some text =>
    lineEntry raw = none ∨ ∃ l ∈ lines text, lineEntry l = lineEntry raw

variable {raw : Str} {line file rest : List UInt8}

end Pfsnitch
