import Pfsnitch.Policy.Target
import Mathlib.Data.Finset.Insert
import Mathlib.Data.Fintype.Basic

/-!
# Pfsnitch.Policy.Basic

The in-memory policy and the parser of the policy file (`Policy::load`).

A policy is ten rule sets, the identity pins and four single-valued settings.
`loadLine` is one turn of the parser's loop: the comment is cut off, the rest
is trimmed and split into a keyword and a value, and the value is inserted
where the keyword says.  A line that says nothing valid leaves the policy as
it was.
-/

namespace Pfsnitch

open Lib

/-! ## verdicts, answers and settings -/

inductive Verdict where
  | allow
  | deny
  | ask
deriving DecidableEq, Repr

/-- What a prompt can come back with. -/
inductive Answer where
  | allowConn
  | allowApp
  | block
  | blockApp
  | timeout
deriving DecidableEq, Repr

/-- What the daemon does with a verdict. -/
inductive Mode where
  | visibility
  | enforcement
deriving DecidableEq, Repr

/-- Which backend names the process behind a flow. -/
inductive AttributionMode where
  | procstat
  | kernel
deriving DecidableEq, Repr

namespace Mode

/-- `Mode::parse`: the former names stay accepted. -/
def parse [Casing] (s : Str) : Option Mode :=
  let v := lower (trim s)
  if v = "visibility".toList ∨ v = "listen".toList ∨ v = "observe".toList then some .visibility
  else if v = "enforcement".toList ∨ v = "enforce".toList then some .enforcement
  else none

def enforcing : Mode → Bool
  | .enforcement => true
  | .visibility => false

end Mode

/-- `AttributionMode::parse`. -/
def AttributionMode.parse [Casing] (s : Str) : Option AttributionMode :=
  let v := lower (trim s)
  if v = "procstat".toList ∨ v = "userspace".toList then some .procstat
  else if v = "kernel".toList then some .kernel
  else none

/-! ## the policy -/

/-- `Policy`: the rule sets, the settings and the identity pins. -/
@[ext] structure Policy where
  default : Option Verdict := none
  allowApp : Finset Str := ∅
  denyApp : Finset Str := ∅
  allowHost : Finset Target := ∅
  denyHost : Finset Target := ∅
  allowDest : Finset (IpAddr × Option UInt16) := ∅
  denyDest : Finset (IpAddr × Option UInt16) := ∅
  allowHostFrom : Finset (Str × Str × Option UInt16) := ∅
  allowDestFrom : Finset (Str × IpAddr × Option UInt16) := ∅
  denyHostFrom : Finset (Str × Str × Option UInt16) := ∅
  denyDestFrom : Finset (Str × IpAddr × Option UInt16) := ∅
  prompt : Option Str := none
  appId : Str → Option Str := fun _ => none
  mode : Option Mode := none
  attribution : Option AttributionMode := none

namespace Policy

/-- The policy the daemon has with no file: ask about everything. -/
def initial : Policy := { default := some .ask }

/-- `Policy::mode`: the file wins over the daemon's own fallback. -/
def modeOr (p : Policy) (fallback : Mode) : Mode := p.mode.getD fallback

/-- `Policy::attribution`: userspace unless the file opts in. -/
def attributionMode (p : Policy) : AttributionMode := p.attribution.getD .procstat

/-- `Policy::expected_id`. -/
def expectedId (p : Policy) (exe : Str) : Option Str := p.appId exe

end Policy

/-! ## the parser -/

/-- The directives of the policy file. -/
inductive Keyword where
  | default | allowApp | denyApp | allowHost | denyHost | prompt | appId | mode | attribution
  | allowHostFrom | allowDestFrom | denyHostFrom | denyDestFrom | allowDest | denyDest
deriving DecidableEq, Repr

namespace Keyword

/-- How the file spells a directive. -/
def text : Keyword → Str
  | .default => "default".toList
  | .allowApp => "allow-app".toList
  | .denyApp => "deny-app".toList
  | .allowHost => "allow-host".toList
  | .denyHost => "deny-host".toList
  | .prompt => "prompt".toList
  | .appId => "app-id".toList
  | .mode => "mode".toList
  | .attribution => "attribution".toList
  | .allowHostFrom => "allow-host-from".toList
  | .allowDestFrom => "allow-dest-from".toList
  | .denyHostFrom => "deny-host-from".toList
  | .denyDestFrom => "deny-dest-from".toList
  | .allowDest => "allow-dest".toList
  | .denyDest => "deny-dest".toList

def all : List Keyword :=
  [.default, .allowApp, .denyApp, .allowHost, .denyHost, .prompt, .appId, .mode, .attribution,
    .allowHostFrom, .allowDestFrom, .denyHostFrom, .denyDestFrom, .allowDest, .denyDest]

/-- The directive a word names, if any. -/
def ofText (s : Str) : Option Keyword := all.find? fun k => k.text == s

@[simp] theorem ofText_text (k : Keyword) : ofText k.text = some k := by
  cases k <;> decide

/-- A directive is one token, free of the comment sign. -/
theorem text_token (k : Keyword) :
    (∀ c ∈ k.text, isWhitespace c = false ∧ c ≠ '#') ∧ k.text ≠ [] := by
  cases k <;> decide

end Keyword

/-- What is left of a raw line: the text before the comment sign, trimmed. -/
def lineBody (raw : Str) : Str := trim (splitFirst (· == '#') raw).1

/-- The first word of a body and the trimmed rest. -/
def keyValue (body : Str) : Str × Str :=
  match splitFirst isWhitespace body with
  | (k, v) => (k, trim (v.getD []))

/-- The value of `default`, when it is one. -/
def parseDefault (v : Str) : Option Verdict :=
  if v = "allow".toList then some .allow
  else if v = "deny".toList then some .deny
  else if v = "ask".toList then some .ask
  else none

/-- A host pattern and its port, folded as the parser stores it. -/
def parseHost [Casing] (v : Str) : Target :=
  let (h, pt) := splitTarget v
  (lower h, pt)

/-- An address and its port. -/
def parseDest (v : Str) : Option (IpAddr × Option UInt16) :=
  let (a, pt) := splitTarget v
  (parseIpAddr a).map fun addr => (addr, pt)

/-- A binary with a host pattern and its port. -/
def parseHostFrom [Casing] (v : Str) : Option (Str × Str × Option UInt16) :=
  (splitScoped v).map fun (h, e) => (e, parseHost h)

/-- A binary with an address and its port. -/
def parseDestFrom (v : Str) : Option (Str × IpAddr × Option UInt16) :=
  (splitScoped v).bind fun (a, e) => (parseDest a).map fun d => (e, d)

/-- Insert what was parsed, if it parsed. -/
def insertSome {α : Type} [DecidableEq α] (x : Option α) (s : Finset α) : Finset α :=
  match x with
  | some a => insert a s
  | none => s

/-- The arm of the parser's `match` for each directive. -/
def Policy.apply [Casing] (p : Policy) (k : Keyword) (v : Str) : Policy :=
  match k with
  | .default =>
    match parseDefault v with
    | some d => { p with default := some d }
    | none => p
  | .allowApp => { p with allowApp := insert v p.allowApp }
  | .denyApp => { p with denyApp := insert v p.denyApp }
  | .allowHost => { p with allowHost := insert (parseHost v) p.allowHost }
  | .denyHost => { p with denyHost := insert (parseHost v) p.denyHost }
  | .prompt => { p with prompt := some v }
  | .appId =>
    match splitScoped v with
    | some (sha, exe) => { p with appId := Function.update p.appId exe (some (lower sha)) }
    | none => p
  | .mode =>
    match Mode.parse v with
    | some m => { p with mode := some m }
    | none => p
  | .attribution =>
    match AttributionMode.parse v with
    | some a => { p with attribution := some a }
    | none => p
  | .allowHostFrom => { p with allowHostFrom := insertSome (parseHostFrom v) p.allowHostFrom }
  | .allowDestFrom => { p with allowDestFrom := insertSome (parseDestFrom v) p.allowDestFrom }
  | .denyHostFrom => { p with denyHostFrom := insertSome (parseHostFrom v) p.denyHostFrom }
  | .denyDestFrom => { p with denyDestFrom := insertSome (parseDestFrom v) p.denyDestFrom }
  | .allowDest => { p with allowDest := insertSome (parseDest v) p.allowDest }
  | .denyDest => { p with denyDest := insertSome (parseDest v) p.denyDest }

/-- The directive a raw line gives, with its value. -/
def directive (raw : Str) : Option (Keyword × Str) :=
  let line := lineBody raw
  if line = [] then none
  else (Keyword.ofText (keyValue line).1).map fun k => (k, (keyValue line).2)

/-- One raw line of the file. -/
def Policy.loadLine [Casing] (p : Policy) (raw : Str) : Policy :=
  match directive raw with
  | some (k, v) => p.apply k v
  | none => p

/-- The lines of a file; a file that cannot be read has none. -/
def textLines (text : Option Str) : List Str :=
  match text with
  | some t => lines t
  | none => []

theorem textLines_eq (text : Option Str) : textLines text = lines (text.getD []) := by
  cases text <;> rfl

/-- `Policy::load`: the policy a file's text denotes. -/
def Policy.load [Casing] (text : Option Str) : Policy :=
  (textLines text).foldl Policy.loadLine .initial

end Pfsnitch
