import Pfsnitch.Adds
import Pfsnitch.Backup
import Pfsnitch.Settings
import Pfsnitch.Cli.Json
import Mathlib.Data.Finset.Card

/-!
# Pfsnitch.Cli.Commands

The commands of `pfsnitch`: what `main` makes of its arguments, and what a command does to
the policy file and its backup.

A command ends with a `Report`, which stands for the texts it prints and has the exit code
of the process.
-/

namespace Pfsnitch

open Lib

/-! ## which command -/

inductive Command
  | probe
  | run (fallback : Mode)
  | rules
  | add (verb : Effect)
  | rm
  | status
  | mode
  | attribution
  | kernelReset
  | apps
  | forget
  | clear
  | help
  | unknown (word : Str)
deriving DecidableEq

/-- The words that `main` knows. -/
def commands : List (Str × Command) :=
  [("probe".toList, .probe), ("visibility".toList, .run .visibility),
    ("listen".toList, .run .visibility), ("enforcement".toList, .run .enforcement),
    ("enforce".toList, .run .enforcement), ("rules".toList, .rules), ("list".toList, .rules),
    ("allow".toList, .add .allow), ("deny".toList, .add .deny), ("rm".toList, .rm),
    ("remove".toList, .rm), ("status".toList, .status), ("mode".toList, .mode),
    ("attribution".toList, .attribution), ("kernel-reset".toList, .kernelReset),
    ("apps".toList, .apps), ("forget".toList, .forget), ("clear".toList, .clear),
    ("help".toList, .help), ("-h".toList, .help), ("--help".toList, .help)]

/-- The `match` of `main`; no word at all is a call for help. -/
def command (args : List Str) : Command :=
  let word := args[1]?.getD "help".toList
  (commands.lookup word).getD (.unknown word)

/-- Does `main` enter the loop of the daemon? -/
def Command.isRun : Command → Bool
  | .run _ => true
  | _ => false

/-! ## is a daemon running -/

namespace Procinfo

/-- `MODES`: the words that make a daemon. -/
def MODES : List Str :=
  ["visibility".toList, "enforcement".toList, "listen".toList, "enforce".toList]

/-- Do these arguments, as the kernel hands them out, belong to a daemon? -/
def isDaemon (argv : List (List UInt8)) : Bool :=
  let words := (argv.take 8).map utf8Lossy
  words.head?.any (basename · = "pfsnitch".toList) && words[1]?.any (· ∈ MODES)

/-- `daemon_running`, called by the process `me`: the process table, if it can be had, with
the arguments of each process, if they can. -/
def daemonRunning (me : Int) (procs : Option (List (Int × Option (List (List UInt8))))) : Bool :=
  (procs.getD []).any fun p => p.1 ≠ me && p.2.any isDaemon

end Procinfo

/-! ## what a command says -/

/-- How a command ends. -/
inductive Report
  /-- The usage, or what is wrong with the arguments. -/
  | usage
  /-- An error of the file system, or of the value that was given. -/
  | failed
  | added (kind value : Str)
  | present (kind value : Str)
  | removed (n : Nat)
  | noSuchRule (kind value : Str)
  | forgot (n : Nat) (exe : Str)
  | noRules (exe : Str)
  | cleared (n : Nat)
  | nothingToClear
  /-- What `clear` would remove, and whether it says that this is enforcement. -/
  | confirm (n : Nat) (enforcing : Bool)
  /-- A setting that is shown. -/
  | shows (x : Setting)
  /-- A setting that has been made. -/
  | sets (x : Setting)
deriving DecidableEq

/-- Fill up with blanks on the right. -/
def padRight (n : Nat) (s : Str) : Str := s ++ List.replicate (n - s.length) ' '

/-- The line that `cmd_rules` prints for a rule. -/
def Rule.display (r : Rule) : Str :=
  padRight 11 r.kind ++ ' ' ::
    match r.comment with
    | some c => padRight 44 r.value ++ " # ".toList ++ c
    | none => r.value

/-! ## `allow` and `deny` -/

/-- The word after a flag. -/
def flagValue (args : List Str) (flag : Str) : Option Str :=
  (args.idxOf? flag).bind fun i => args[i + 1]?

/-- The kind of rule that a command adds.  A rule for a binary is one whether it is scoped or
not. -/
def addKind (verb : Effect) (what : Str) (isScoped : Bool) : Option Keyword :=
  if what = "host".toList then
    match verb, isScoped with
    | .allow, false => some .allowHost
    | .allow, true => some .allowHostFrom
    | .deny, false => some .denyHost
    | .deny, true => some .denyHostFrom
  else if what = "dest".toList ∨ what = "ip".toList then
    match verb, isScoped with
    | .allow, false => some .allowDest
    | .allow, true => some .allowDestFrom
    | .deny, false => some .denyDest
    | .deny, true => some .denyDestFrom
  else if what = "app".toList then
    match verb with
    | .allow => some .allowApp
    | .deny => some .denyApp
  else none

/-- Does the kind end in `-from`? -/
def isFromKind (kind : Str) : Bool := "-from".toList.isSuffixOf kind

/-- The value of the rule: of a scoped one, the destination and the binary. -/
def addValue (kind value : Str) : Option Str → Str
  | some exe => if isFromKind kind then value ++ ' ' :: exe else value
  | none => value

/-- The rule that the arguments of `allow` and `deny` are for, if they can be read. -/
def addArgs (verb : Effect) (args : List Str) : Option (Str × Str) :=
  match args[2]?, args[3]? with
  | some what, some value =>
    let scope := flagValue args "--from".toList
    -- `--from` with nothing after it is no rule for every binary
    if "--from".toList ∈ args ∧ scope = none then none
    else (addKind verb what scope.isSome).map fun k => (k.text, addValue k.text value scope)
  | _, _ => none

/-- What a call of `fs::read_to_string` gives that may fail. -/
def readText (read : Bool) (file : Option (List UInt8)) : Option Str :=
  if read then readToString file else none

/-- `add_rule` on the file as it is stored, which may fail to be read: then it has no rules
for `rules`, and the line is appended all the same. -/
def addRule [Casing] (kind value : Str) (note : Option Str) (read : Bool) (w : WriteResult)
    (file : Option (List UInt8)) : Option Returned × Option (List UInt8) :=
  match (Edit.addRule kind value note).run (readText read file), w with
  | (.added true, _), .written => (some (.added true), some (appendBytes file (addLine kind value note)))
  | (.added true, _), .failed left => (none, left)
  | (ret, _), _ => (some ret, file)

/-- `cmd_add`, on the policy file as it is stored. -/
def cmdAdd [Casing] (verb : Effect) (args : List Str) (read : Bool) (w : WriteResult)
    (file : Option (List UInt8)) : Report × Option (List UInt8) :=
  match addArgs verb args with
  | none => (.usage, file)
  | some (kind, value) =>
    match addRule kind value (flagValue args "--note".toList) read w file with
    | (some (.added true), file') => (.added kind value, file')
    | (some (.added false), file') => (.present kind value, file')
    | (_, file') => (.failed, file')

/-! ## `rm`, `forget` and `clear` -/

/-- `remove_rule` on the policy file as it is stored: how many lines went, if it succeeds,
and the file it leaves. -/
def storedRemove [Casing] (kind value : Str) (ops : FileOps) (file : Option (List UInt8)) :
    Option Nat × Option (List UInt8) :=
  match readText ops.read file with
  | none => (none, file)
  | some text =>
    let (kept, removed) := removeRule kind value text
    if removed > 0 then
      if ops.write then (some removed, some (utf8Bytes kept)) else (none, file)
    else (some 0, file)

/-- The rule that the arguments of `rm` are for.  The words of a scoped one are joined. -/
def rmArgs (args : List Str) : Option (Str × Str) :=
  match args[2]?, args[3]? with
  | some kind, some value =>
    if kind ∉ KINDS then none
    else some (kind, if isFromKind kind then [' '].intercalate (args.drop 3) else value)
  | _, _ => none

/-- `cmd_rm`. -/
def cmdRm [Casing] (args : List Str) (ops : FileOps) (file : Option (List UInt8)) :
    Report × Option (List UInt8) :=
  match rmArgs args with
  | none => (.usage, file)
  | some (kind, value) =>
    match storedRemove kind value ops file with
    | (none, file') => (.failed, file')
    | (some 0, file') => (.noSuchRule kind value, file')
    | (some n, file') => (.removed n, file')

/-- `cmd_forget`; the rules of no binary are refused. -/
def cmdForget (args : List Str) (ops : RemovalOps) (s : Backed) : Report × Backed :=
  match args[2]? with
  | none => (.usage, s)
  | some exe =>
    if exe = [] ∨ exe = ['-'] then (.usage, s)
    else
      match (Removal.app exe).run ops s with
      | (none, s') => (.failed, s')
      | (some 0, s') => (.noRules exe, s')
      | (some n, s') => (.forgot n exe, s')

/-- `cmd_clear`. -/
def cmdClear [Casing] (args : List Str) (ops : RemovalOps) (s : Backed) : Report × Backed :=
  if "--yes".toList ∉ args then
    let text := Removal.text ops s
    (.confirm (rules text).length ((Policy.load text).modeOr .visibility).enforcing, s)
  else
    match Removal.clear.run ops s with
    | (none, s') => (.failed, s')
    | (some 0, s') => (.nothingToClear, s')
    | (some n, s') => (.cleared n, s')

/-! ## `mode`, `attribution` and `status` -/

section

variable [Casing]

/-- The end of `cmd_mode` and `cmd_attribution`. -/
def setSetting (x : Setting) (ops : FileOps) (file : Option (List UInt8)) :
    Report × Option (List UInt8) :=
  match x.switch ops file with
  | (true, file') => (.sets x, file')
  | (false, file') => (.failed, file')

/-- `cmd_mode`. -/
def cmdMode (args : List Str) (ops : FileOps) (file : Option (List UInt8)) :
    Report × Option (List UInt8) :=
  match args[2]? with
  | none => (.shows (.mode ((Policy.load (readText ops.read file)).modeOr .visibility)), file)
  | some want =>
    match Mode.parse want with
    | none => (.usage, file)
    | some m => setSetting (.mode m) ops file

/-- `cmd_attribution`; the note that the module is not loaded is left out. -/
def cmdAttribution (args : List Str) (ops : FileOps) (file : Option (List UInt8)) :
    Report × Option (List UInt8) :=
  match args[2]? with
  | none => (.shows (.attribution (Policy.load (readText ops.read file)).attributionMode), file)
  | some want =>
    match AttributionMode.parse want with
    | none => (.usage, file)
    | some a => setSetting (.attribution a) ops file

end

/-- What `summary` tells of a policy. -/
structure Summary where
  default : Verdict
  allowApp : Nat
  denyApp : Nat
  allowHost : Nat
  allowDest : Nat
deriving DecidableEq

/-- `Policy::summary`. -/
def Policy.summary (p : Policy) : Summary :=
  ⟨p.default.getD .ask, p.allowApp.card, p.denyApp.card, p.allowHost.card, p.allowDest.card⟩

/-- What `status` shows. -/
structure Status where
  running : Bool
  mode : Mode
  prompt : Str
  summary : Summary
  counts : List (Str × Nat)
  total : Nat
deriving DecidableEq

/-- `PROMPT_BIN`. -/
def PROMPT_BIN : Str := "/usr/local/libexec/pfsnitch-prompt".toList

/-- `prompt_bin`: the environment wins over the file. -/
def Policy.promptBin (p : Policy) (env : Option Str) (builtin : Str) : Str :=
  match env with
  | some e => if e = [] then p.prompt.getD builtin else e
  | none => p.prompt.getD builtin

/-- `cmd_status`, with what `PFSNITCH_PROMPT` is set to. -/
def cmdStatus [Casing] (running : Bool) (env : Option Str) (file : Option (List UInt8)) : Status :=
  let pol := Policy.loadFile file
  let rs := rules (readToString file)
  { running
    mode := pol.modeOr .visibility
    prompt := pol.promptBin env PROMPT_BIN
    summary := pol.summary
    counts := KINDS.map fun k => (k, rs.countP (·.kind == k))
    total := rs.length }

end Pfsnitch
