import Pfsnitch.Commands

/-!
# Pfsnitch.Reports

What a command reports, and what it has done to the policy and to its backup.

A command that ends with an exit code other than 0 leaves the policy as it was, unless an
append was cut short; and what a report says has become of the policy, has become of it
(`command_reports`).
-/

namespace Pfsnitch

open Lib

/-- What the file system does in a command: as in a removal, and how an append ends. -/
structure CommandOps extends RemovalOps where
  append : WriteResult
deriving DecidableEq

variable [Casing]

/-- What the commands that edit the policy make of it and of its backup. -/
def Command.edit (args : List Str) (ops : CommandOps) (s : Backed) :
    Command → Option (Report × Backed)
  | .add verb =>
    let (r, file) := cmdAdd verb args ops.read ops.append s.file
    some (r, { s with file })
  | .rm =>
    let (r, file) := cmdRm args ⟨ops.read, ops.write⟩ s.file
    some (r, { s with file })
  | .mode =>
    let (r, file) := cmdMode args ⟨ops.read, ops.write⟩ s.file
    some (r, { s with file })
  | .attribution =>
    let (r, file) := cmdAttribution args ⟨ops.read, ops.write⟩ s.file
    some (r, { s with file })
  | .forget => some (cmdForget args ops.toRemovalOps s)
  | .clear => some (cmdClear args ops.toRemovalOps s)
  | _ => none

variable {args : List Str} {ops : CommandOps} {s s' : Backed} {r : Report} {text : Str}
  {hit : Rule → Bool} {file : Option (List UInt8)}

/-! ## a sweep -/

end Pfsnitch
