import Pfsnitch.Cli.Apps
import Pfsnitch.Lib.Json

/-!
# Pfsnitch.Cli.Json

`pfsnitch rules --json` and `pfsnitch apps --json`, as they are printed, and the values
that the text stands for.

The program puts the text together by hand.  `written_ruleJson` and `written_appJson`
follow it field by field with the rules of `Lib.Json`; the only thing they need to know of
the names in it is that `jsonEscape` is a way of writing that a reader undoes
(`escapes_escapeChar`).
-/

namespace Pfsnitch

open Lib Lib.Json

/-! ## the text -/

def escapeChar (c : Char) : Str :=
  match c with
  | '"' => "\\\"".toList
  | '\\' => "\\\\".toList
  | '\n' => "\\n".toList
  | '\r' => "\\r".toList
  | '\t' => "\\t".toList
  | c => if c.toNat < 0x20 then "\\u".toList ++ (Nat.toDigits 16 c.toNat).leftpad 4 '0' else [c]

/-- `json_escape`. -/
def jsonEscape (s : Str) : Str := s.flatMap escapeChar

def commentJson (comment : Option Str) : Str :=
  match comment with
  | some c => "\"".toList ++ jsonEscape c ++ "\"".toList
  | none => "null".toList

def ruleJson (r : Rule) : Str :=
  "  \x7b\"kind\":\"".toList ++ jsonEscape r.kind ++ "\",\"value\":\"".toList ++
    jsonEscape r.value ++ "\",\"comment\":".toList ++ commentJson r.comment ++ "\x7d".toList

/-- What `cmd_rules` prints with `--json`. -/
def rulesJson (text : Option Str) : Str :=
  let rs := rules text
  "[\n".toList ++ commaLines (rs.map ruleJson) ++ "]\n".toList

/-- The part of a path behind its last separator. -/
def basename (app : Str) : Str := ((splitLast '/' app).map (·.2)).getD app

/-- `short_dir`. -/
def shortDir (dir : Str) (max : Nat) : Str :=
  let n := dir.length
  if n ≤ max then dir
  else
    let tail := dir.drop (n - (max - 1))
    if '/' ∈ tail then '…' :: tail.dropWhile (· ≠ '/') else '…' :: tail

/-- The directory of an application, with the separator, and its name. -/
def dirName (app : Str) : Str × Str :=
  if app = [] then ([], "any application".toList)
  else
    match splitLast '/' app with
    | some (dir, name) => (dir ++ ['/'], name)
    | none => ([], app)

def seenJson (t : Option UInt64) : Str := (t.map showU64).getD "null".toList

variable [Casing]

/-- The order of texts, by their characters. -/
def textLe (a b : Str) : Bool := !List.lex b a fun c d => c.toNat < d.toNat

/-- The order of the groups: by the name of the binary, the rules for any binary last. -/
def appLe (a b : Str) : Bool :=
  if a.isEmpty = b.isEmpty then textLe (lower (basename a)) (lower (basename b)) else b.isEmpty

def Groups.sorted (g : Groups) : List Str := g.order.mergeSort appLe

/-- `app_last`. -/
def appLast (last : LastSeen) (app : Str) (rules : List (Rule × Split)) : Option UInt64 :=
  if app = [] then latest (rules.filterMap fun (_, s) => ruleSeen last app s)
  else latestOf last fun k => k.1 = app

/-- A rule of a group, with its place in it; `now` is what `ago` reads from the clock. -/
def appRuleJson (last : LastSeen) (app : Str) (now : Option Nat → UInt64) :
    (Rule × Split) × Nat → Str
  | ((r, s), j) =>
    let ls := ruleSeen last app s
    "      \x7b\"kind\":\"".toList ++ jsonEscape r.kind ++ "\",\"value\":\"".toList ++
      jsonEscape r.value ++ "\",\"dest\":\"".toList ++ jsonEscape s.dest ++
      "\",\"effect\":\"".toList ++ s.effect.text ++ "\",\"last_seen\":".toList ++ seenJson ls ++
      ",\"last_seen_ago\":\"".toList ++ jsonEscape (Seen.ago ls (now (some j))) ++
      "\",\"comment\":".toList ++ commentJson r.comment ++ "\x7d".toList

/-- A group, with its place; the clock is read for its head and for each of its rules. -/
def appJson (last : LastSeen) (g : Groups) (clock : Nat → Option Nat → UInt64) : Str × Nat → Str
  | (app, i) =>
    let rules := g.rulesOf app
    let allow := rules.countP fun x => x.2.effect = .allow
    let deny := rules.length - allow
    let dir := (dirName app).1
    let name := (dirName app).2
    let appLast := appLast last app rules
    "  \x7b\n".toList ++
    "    \"app\":\"".toList ++ jsonEscape app ++ "\",\n".toList ++
    "    \"dir\":\"".toList ++ jsonEscape dir ++ "\",\n".toList ++
    "    \"dir_short\":\"".toList ++ jsonEscape (shortDir dir 15) ++ "\",\n".toList ++
    "    \"name\":\"".toList ++ jsonEscape name ++ "\",\n".toList ++
    "    \"allow\":".toList ++ Nat.toDigits 10 allow ++ ",\"deny\":".toList ++
      Nat.toDigits 10 deny ++ ",\"total\":".toList ++ Nat.toDigits 10 rules.length ++
      ",\n".toList ++
    "    \"last_seen\":".toList ++ seenJson appLast ++ ",\"last_seen_ago\":\"".toList ++
      jsonEscape (Seen.ago appLast (clock i none)) ++ "\",\n".toList ++
    "    \"rules\":[\n".toList ++
    commaLines (rules.zipIdx.map (appRuleJson last app (clock i))) ++
    "    ]\n".toList ++
    "  \x7d".toList

/-- What `cmd_apps` prints with `--json`. -/
def appsJson (text seenText : Option Str) (clock : Nat → Option Nat → UInt64) : Str :=
  let g := Groups.ofRules (rules text)
  let last := Seen.load seenText
  "\x7b\"apps\":[\n".toList ++ commaLines (g.sorted.zipIdx.map (appJson last g clock)) ++
    "]\x7d\n".toList

/-! ## the values -/

/-- What is written as `null` when it is absent. -/
def nullOr {α : Type} (value : α → Json) (x : Option α) : Json := x.elim .null value

def seenValue (t : Option UInt64) : Json := nullOr (fun t => .number t.toNat 0) t

def ruleValue (r : Rule) : Json :=
  .object [("kind".toList, .string r.kind), ("value".toList, .string r.value),
    ("comment".toList, nullOr .string r.comment)]

def appRuleValue (last : LastSeen) (app : Str) (now : Option Nat → UInt64) :
    (Rule × Split) × Nat → Json
  | ((r, s), j) =>
    .object [("kind".toList, .string r.kind), ("value".toList, .string r.value),
      ("dest".toList, .string s.dest), ("effect".toList, .string s.effect.text),
      ("last_seen".toList, seenValue (ruleSeen last app s)),
      ("last_seen_ago".toList, .string (Seen.ago (ruleSeen last app s) (now (some j)))),
      ("comment".toList, nullOr .string r.comment)]

def appValue (last : LastSeen) (g : Groups) (clock : Nat → Option Nat → UInt64) :
    Str × Nat → Json
  | (app, i) =>
    let rules := g.rulesOf app
    let allow := rules.countP fun x => x.2.effect = .allow
    let dir := (dirName app).1
    let appLast := appLast last app rules
    .object [("app".toList, .string app), ("dir".toList, .string dir),
      ("dir_short".toList, .string (shortDir dir 15)),
      ("name".toList, .string (dirName app).2), ("allow".toList, .number allow 0),
      ("deny".toList, .number (rules.length - allow : Nat) 0),
      ("total".toList, .number rules.length 0), ("last_seen".toList, seenValue appLast),
      ("last_seen_ago".toList, .string (Seen.ago appLast (clock i none))),
      ("rules".toList, .array (rules.zipIdx.map (appRuleValue last app (clock i))))]

/-! ## what is written -/

variable {last : LastSeen} {app : Str} {t : Option UInt64}

omit [Casing] in
/-- A control character is written by its letter or by its number. -/
theorem escapes_low {c : Char} (h : c.toNat < 0x20) : Escapes escapeChar c := by
  obtain ⟨n, hn, rfl⟩ : ∃ n < 0x20, c = Char.ofNat n := ⟨c.toNat, h, (Char.ofNat_toNat c).symm⟩
  clear h
  interval_cases n
  all_goals exact ⟨by decide, fun t => rfl⟩

omit [Casing] in
/-- What the program escapes, a reader gets back. -/
theorem escapes_escapeChar (c : Char) : Escapes escapeChar c := by
  by_cases hlow : c.toNat < 0x20
  · exact escapes_low hlow
  by_cases hquote : c = '"'
  · subst hquote
    exact ⟨by decide, fun t => rfl⟩
  by_cases hslash : c = '\\'
  · subst hslash
    exact ⟨by decide, fun t => rfl⟩
  have hplain : Plain [c] := by
    simpa [Plain] using ⟨hslash, hquote, Nat.le_of_not_lt hlow⟩
  have hesc : escapeChar c = [c] := by
    have hne {d : Char} (hd : d.toNat < 0x20) : c ≠ d := by
      rintro rfl
      exact hlow hd
    unfold escapeChar
    split
    · exact absurd rfl hquote
    · exact absurd rfl hslash
    · exact absurd rfl (hne (by decide))
    · exact absurd rfl (hne (by decide))
    · exact absurd rfl (hne (by decide))
    · rw [if_neg hlow]
  obtain ⟨hhead, hchar⟩ := hplain.escapes c (by simp)
  exact ⟨by rwa [hesc], fun t => by rw [hesc, hchar]⟩

/-- A text in quotes. -/
def quote (s : Str) : Str := '"' :: (jsonEscape s ++ ['"'])

omit [Casing] in
theorem written_quote (s : Str) : Written (quote s) (.string s) :=
  written_string fun c _ => escapes_escapeChar c

omit [Casing] in
theorem written_commentJson (comment : Option Str) :
    Written (commentJson comment) (nullOr .string comment) := by
  cases comment with
  | none => exact written_null
  | some c => exact written_quote c

omit [Casing] in
theorem written_seenJson : Written (seenJson t) (seenValue t) := by
  cases t with
  | none => exact written_null
  | some t => exact written_nat t.toNat

omit [Casing] in
theorem written_ruleJson (r : Rule) : Written (ruleJson r) (ruleValue r) := by
  have htext : ruleJson r = "  ".toList ++ '{' ::
      fieldHead [] "kind".toList (quote r.kind ++ ',' ::
      fieldHead [] "value".toList (quote r.value ++ ',' ::
      fieldHead [] "comment".toList (commentJson r.comment ++ ([] ++ ['}'])))) := by
    unfold ruleJson
    simp [fieldHead, quote]
  rw [htext]
  refine written_blank (by decide) (written_object ?_)
  refine fields_cons (by decide) (by decide) (written_quote _) ?_
  refine fields_cons (by decide) (by decide) (written_quote _) ?_
  exact fields_last (by decide) (by decide) (written_commentJson _) (by decide)

omit [Casing] in
theorem written_effect (e : Effect) : Written ('"' :: (e.text ++ ['"'])) (.string e.text) := by
  cases e with
  | allow => exact written_plain (by decide)
  | deny => exact written_plain (by decide)

theorem written_appRuleJson (now : Option Nat → UInt64) (x : (Rule × Split) × Nat) :
    Written (appRuleJson last app now x) (appRuleValue last app now x) := by
  obtain ⟨⟨r, s⟩, j⟩ := x
  have htext : appRuleJson last app now ((r, s), j) = "      ".toList ++ '{' ::
      fieldHead [] "kind".toList (quote r.kind ++ ',' ::
      fieldHead [] "value".toList (quote r.value ++ ',' ::
      fieldHead [] "dest".toList (quote s.dest ++ ',' ::
      fieldHead [] "effect".toList ('"' :: (s.effect.text ++ ['"']) ++ ',' ::
      fieldHead [] "last_seen".toList (seenJson (ruleSeen last app s) ++ ',' ::
      fieldHead [] "last_seen_ago".toList
        (quote (Seen.ago (ruleSeen last app s) (now (some j))) ++ ',' ::
      fieldHead [] "comment".toList (commentJson r.comment ++ ([] ++ ['}'])))))))) := by
    unfold appRuleJson
    simp [fieldHead, quote]
  rw [htext]
  refine written_blank (by decide) (written_object ?_)
  refine fields_cons (by decide) (by decide) (written_quote _) ?_
  refine fields_cons (by decide) (by decide) (written_quote _) ?_
  refine fields_cons (by decide) (by decide) (written_quote _) ?_
  refine fields_cons (by decide) (by decide) (written_effect _) ?_
  refine fields_cons (by decide) (by decide) written_seenJson ?_
  refine fields_cons (by decide) (by decide) (written_quote _) ?_
  exact fields_last (by decide) (by decide) (written_commentJson _) (by decide)

set_option maxRecDepth 1000 in
theorem written_appJson (g : Groups) (clock : Nat → Option Nat → UInt64) (x : Str × Nat) :
    Written (appJson last g clock x) (appValue last g clock x) := by
  obtain ⟨app, i⟩ := x
  have htext : appJson last g clock (app, i) = "  ".toList ++ '{' ::
      fieldHead "\n    ".toList "app".toList (quote app ++ ',' ::
      fieldHead "\n    ".toList "dir".toList (quote (dirName app).1 ++ ',' ::
      fieldHead "\n    ".toList "dir_short".toList (quote (shortDir (dirName app).1 15) ++ ',' ::
      fieldHead "\n    ".toList "name".toList (quote (dirName app).2 ++ ',' ::
      fieldHead "\n    ".toList "allow".toList
        (Nat.toDigits 10 ((g.rulesOf app).countP fun x => x.2.effect = .allow) ++ ',' ::
      fieldHead [] "deny".toList
        (Nat.toDigits 10 ((g.rulesOf app).length -
          (g.rulesOf app).countP fun x => x.2.effect = .allow) ++ ',' ::
      fieldHead [] "total".toList (Nat.toDigits 10 (g.rulesOf app).length ++ ',' ::
      fieldHead "\n    ".toList "last_seen".toList
        (seenJson (appLast last app (g.rulesOf app)) ++ ',' ::
      fieldHead [] "last_seen_ago".toList
        (quote (Seen.ago (appLast last app (g.rulesOf app)) (clock i none)) ++ ',' ::
      fieldHead "\n    ".toList "rules".toList
        ('[' :: '\n' :: (commaLines ((g.rulesOf app).zipIdx.map
          (appRuleJson last app (clock i))) ++ ("    ".toList ++ [']'])) ++
        ("\n  ".toList ++ ['}']))))))))))) := by
    unfold appJson
    simp [fieldHead, quote]
  rw [htext]
  refine written_blank (by decide) (written_object ?_)
  refine fields_cons (by decide) (by decide) (written_quote _) ?_
  refine fields_cons (by decide) (by decide) (written_quote _) ?_
  refine fields_cons (by decide) (by decide) (written_quote _) ?_
  refine fields_cons (by decide) (by decide) (written_quote _) ?_
  refine fields_cons (by decide) (by decide) (written_nat _) ?_
  refine fields_cons (by decide) (by decide) (written_nat _) ?_
  refine fields_cons (by decide) (by decide) (written_nat _) ?_
  refine fields_cons (by decide) (by decide) written_seenJson ?_
  refine fields_cons (by decide) (by decide) (written_quote _) ?_
  refine fields_last (by decide) (by decide) (written_lines ?_ (by decide)) (by decide)
  exact fun x _ => written_appRuleJson (clock i) x

/-! ## what is read -/

omit [Casing] in
/-- The rules as they are printed, read back. -/
theorem parse_rulesJson (text : Option Str) :
    Json.parse (rulesJson text) = some (.array ((rules text).map ruleValue)) := by
  have htext : rulesJson text =
      '[' :: '\n' :: (commaLines ((rules text).map ruleJson) ++ ([] ++ [']'])) ++ ['\n'] := by
    unfold rulesJson
    simp
  rw [htext]
  exact parse_of_written (written_lines (fun r _ => written_ruleJson r) (by decide)) (by decide)

/-- The groups as they are printed, read back. -/
theorem parse_appsJson (text seenText : Option Str) (clock : Nat → Option Nat → UInt64) :
    Json.parse (appsJson text seenText clock) = some (.object [("apps".toList,
      .array ((Groups.ofRules (rules text)).sorted.zipIdx.map
        (appValue (Seen.load seenText) (Groups.ofRules (rules text)) clock)))]) := by
  have htext : appsJson text seenText clock = '{' :: fieldHead [] "apps".toList
      ('[' :: '\n' :: (commaLines ((Groups.ofRules (rules text)).sorted.zipIdx.map
        (appJson (Seen.load seenText) (Groups.ofRules (rules text)) clock)) ++ ([] ++ [']'])) ++
        ([] ++ ['}'])) ++ ['\n'] := by
    unfold appsJson
    simp [fieldHead]
  rw [htext]
  refine parse_of_written (written_object ?_) (by decide)
  refine fields_last (by decide) (by decide) (written_lines ?_ (by decide)) (by decide)
  exact fun x _ => written_appJson _ clock x

end Pfsnitch
