import Pfsnitch.Lib.Numeral

/-!
# Pfsnitch.Prompt.Common

The prompt backends (`pfsnitch-prompt-common` and the backends that source it),
`pfsnitch-answer`, and the frontends that run it.

All prompts share three files of `/var/run/pfsnitch`: the pending request, the
nonce and the answer.  A step reads, writes or removes one of them.  The shell's
expansions are functions on texts; times are left out, so that `sleep` takes no
step of its own.
-/

namespace Pfsnitch.Prompt

open Lib

/-! ## the shell's expansions -/

/-- `$(..)`: what the command printed, less the newlines at its end. -/
def capture (s : Str) : Str := s.rdropWhile (· == '\n')

/-- `${v%% *}`: `v` up to its first space. -/
def beforeSpace (v : Str) : Str := (splitFirst (· == ' ') v).1

/-- `${v#* }`: `v` after its first space, all of it when it has none. -/
def afterSpace (v : Str) : Str := (splitFirst (· == ' ') v).2.getD v

/-- `${i:-other}`: the argument, or `other` when it is unset or empty. -/
def argOr (argv : List Str) (i : Nat) (other : String) : Str :=
  match argv[i]? with
  | some (c :: s) => c :: s
  | _ => other.toList

/-- The two substitutions of `jesc`, one after the other. -/
def jesc (s : Str) : Str :=
  (s.flatMap fun c => if c = '\\' then ['\\', '\\'] else [c]).flatMap
    fun c => if c = '"' then ['\\', '"'] else [c]

/-! ## nonces and requests -/

/-- Eight bytes of `/dev/urandom`. -/
structure Nonce where
  bytes : List UInt8
  length_eq : bytes.length = 8
deriving DecidableEq

/-- A byte as `od -tx1` prints it. -/
def hexByte (b : UInt8) : Str := [Nat.digitChar (b.toNat / 16), Nat.digitChar (b.toNat % 16)]

/-- The nonce as `od | tr -d ' \n'` prints it. -/
def Nonce.text (n : Nonce) : Str := n.bytes.flatMap hexByte

/-- The arguments of a prompt, with the defaults of `pfsnitch-prompt-common`. -/
structure Request where
  exe : Str
  pid : Str
  cmd : Str
  dst : Str
  dport : Str
  host : Str
  idstate : Str
  scope : Str
deriving DecidableEq

def Request.ofArgv (argv : List Str) : Request where
  exe := argOr argv 0 "?"
  pid := argOr argv 1 "?"
  cmd := argOr argv 2 "?"
  dst := argOr argv 3 "?"
  dport := argOr argv 4 "?"
  host := argOr argv 5 "-"
  idstate := argOr argv 6 "ok"
  scope := argOr argv 7 "unknown"

/-- One member of the object in `pending.json`. -/
def jsonField (name : String) (value : Str) : Str :=
  '"' :: name.toList ++ "\":\"".toList ++ capture (jesc value) ++ ['"']

/-- What `pf_init` writes to `pending.json`. -/
def pendingJson (n : Nonce) (r : Request) : Str :=
  '\x7b' :: jsonField "nonce" n.text ++
    [jsonField "idstate" r.idstate, jsonField "scope" r.scope, jsonField "exe" r.exe,
      jsonField "pid" r.pid, jsonField "command" r.cmd, jsonField "dst" r.dst,
      jsonField "dport" r.dport, jsonField "hostname" r.host].flatMap (',' :: ·) ++
    ['\x7d', '\n']

/-! ## the backends -/

/-- The words a waiting backend takes, and those `pfsnitch-answer` passes on. -/
def verdicts : List Str :=
  ["allow-conn".toList, "allow-app".toList, "block-conn".toList, "block".toList,
    "block-app".toList]

/-- What a backend prints when nobody answered. -/
def timeout : Str := "timeout".toList

/-- The files of `/var/run/pfsnitch`. -/
structure Files where
  answer : Option Str
  nonce : Option Str
  pending : Option Str
deriving DecidableEq

/-- The backends that publish a request: `file` and `eww` wait for the answer
file, `tty` asks on a terminal of its own. -/
inductive Kind
  | file | eww | tty
deriving DecidableEq

def Kind.waits : Kind → Bool
  | .file | .eww => true
  | .tty => false

/-- Where a backend is in its script. -/
inductive BackendPc
  | rmAnswer
  | putNonce
  | putPending
  | testAnswer (i : Nat)
  | catAnswer (i : Nat)
  | takeAnswer (i : Nat) (ans : Str)
  | readTty
  | rmPending (ans : Str)
  | rmNonce (ans : Str)
  | print (ans : Str)
  | ended
deriving DecidableEq

structure Backend where
  kind : Kind
  nonce : Nonce
  request : Request
  pc : BackendPc
deriving DecidableEq

/-- `_limit` of `pf_wait 120`. -/
def waitLimit : Nat := 120

/-- The next round of `pf_wait`, or `timeout`. -/
def nextRound (i : Nat) : BackendPc :=
  if i + 1 < waitLimit then .testAnswer (i + 1) else .rmPending timeout

/-- The verdict of `pfsnitch-prompt-tty`, for what was read from the terminal. -/
def ttyVerdict : Option Str → Str
  | none => timeout
  | some reply =>
    if reply ∈ ["c".toList, "C".toList, "allow-conn".toList] then "allow-conn".toList
    else if reply ∈ ["a".toList, "A".toList, "allow-app".toList] then "allow-app".toList
    else if reply ∈ ["b".toList, "block".toList] then "block-conn".toList
    else if reply ∈ ["B".toList, "block-app".toList] then "block-app".toList
    else timeout

namespace Backend

/-- The text of this backend's `pending.json`. -/
def pendingJson (b : Backend) : Str := Prompt.pendingJson b.nonce b.request

/-- The answer the backend goes on with, `timeout` or the words it has read. -/
def taken (b : Backend) : Option Str :=
  match b.pc with
  | .takeAnswer _ ans | .rmPending ans | .rmNonce ans | .print ans => some ans
  | _ => none

/-- The backend's next step: the files, the backend, and what it printed.
`reply` is what its terminal answers, if that is what it reads. -/
def step (fs : Files) (b : Backend) (reply : Option Str) :
    Option (Files × Backend × Option Str) :=
  match b.pc with
  -- pf_init
  | .rmAnswer => some ({ fs with answer := none }, { b with pc := .putNonce }, none)
  | .putNonce => some ({ fs with nonce := some b.nonce.text }, { b with pc := .putPending }, none)
  | .putPending =>
    some ({ fs with pending := some b.pendingJson },
      { b with pc := if b.kind.waits then .testAnswer 0 else .readTty }, none)
  -- pf_wait
  | .testAnswer i =>
    match fs.answer with
    | some (_ :: _) => some (fs, { b with pc := .catAnswer i }, none)
    | _ => some (fs, { b with pc := nextRound i }, none)
  | .catAnswer i =>
    let line := capture (fs.answer.getD [])
    if beforeSpace line = b.nonce.text then
      some (fs, { b with pc := .takeAnswer i (afterSpace line) }, none)
    else some (fs, { b with pc := nextRound i }, none)
  | .takeAnswer i ans =>
    some ({ fs with answer := none },
      { b with pc := if ans ∈ verdicts then .rmPending ans else nextRound i }, none)
  | .readTty => some (fs, { b with pc := .rmPending (ttyVerdict reply) }, none)
  -- pf_cleanup
  | .rmPending ans => some ({ fs with pending := none }, { b with pc := .rmNonce ans }, none)
  | .rmNonce ans => some ({ fs with nonce := none }, { b with pc := .print ans }, none)
  | .print ans => some (fs, { b with pc := .ended }, some ans)
  | .ended => none

end Backend

/-! ## the frontends -/

/-- Where a frontend is: it has read a request, it runs `pfsnitch-answer` and has
read the nonce there, it has answered, or `pfsnitch-answer` refused its word. -/
inductive FrontendPc
  | looked
  | clicked (verdict nonce : Str)
  | answered (verdict : Str)
  | refused
deriving DecidableEq

/-- A frontend and the `pending.json` it has read. -/
structure Frontend where
  seen : Str
  pc : FrontendPc
deriving DecidableEq

/-- The verdict the frontend gave. -/
def Frontend.gave (f : Frontend) : Option Str :=
  match f.pc with
  | .clicked v _ | .answered v => some v
  | .looked | .refused => none

/-- `${NONCE:-none}`, for what is in the nonce file. -/
def Files.nonceOr (fs : Files) : Str :=
  match capture (fs.nonce.getD []) with
  | [] => "none".toList
  | c :: s => c :: s

/-- The line `pfsnitch-answer` writes. -/
def answerLine (nonce verdict : Str) : Str := nonce ++ ' ' :: (verdict ++ ['\n'])

/-! ## the system -/

/-- The shared files, every prompt that was raised, and every frontend that has
read a request. -/
structure State where
  files : Files
  backends : List Backend
  frontends : List Frontend
deriving DecidableEq

/-- Nothing in `/var/run/pfsnitch`, nobody there. -/
def State.initial : State := ⟨⟨none, none, none⟩, [], []⟩

/-- What can happen next. -/
inductive Event
  /-- The daemon raises a prompt, which draws this nonce. -/
  | raise (kind : Kind) (argv : List Str) (nonce : Nonce)
  /-- A backend takes its next step. -/
  | backend (i : Nat) (reply : Option Str)
  /-- A backend is killed. -/
  | kill (i : Nat)
  /-- One more frontend reads `pending.json`. -/
  | look
  /-- A frontend runs `pfsnitch-answer`, which reads the nonce. -/
  | click (j : Nat) (verdict : Str)
  /-- `pfsnitch-answer` writes the answer. -/
  | put (j : Nat)

/-- The system takes an event; what it outputs is what a backend printed, with
the backend's number.  A nonce is drawn once. -/
def State.step (st : State) : Event → Option (State × List (Nat × Str))
  | .raise kind argv nonce =>
    if nonce ∈ st.backends.map (·.nonce) then none
    else
      some ({ st with
        backends := st.backends ++ [⟨kind, nonce, .ofArgv argv, .rmAnswer⟩] }, [])
  | .backend i reply => do
    let b ← st.backends[i]?
    let (files, b, printed) ← b.step st.files reply
    return ({ st with files, backends := st.backends.set i b }, (printed.map (i, ·)).toList)
  | .kill i => do
    let b ← st.backends[i]?
    return ({ st with backends := st.backends.set i { b with pc := .ended } }, [])
  | .look => do
    let seen ← st.files.pending
    return ({ st with frontends := st.frontends ++ [⟨seen, .looked⟩] }, [])
  | .click j verdict =>
    match st.frontends[j]? with
    | some ⟨seen, .looked⟩ =>
      let pc := if verdict ∈ verdicts then .clicked verdict st.files.nonceOr else .refused
      some ({ st with frontends := st.frontends.set j ⟨seen, pc⟩ }, [])
    | _ => none
  | .put j =>
    match st.frontends[j]? with
    | some ⟨seen, .clicked verdict nonce⟩ =>
      some ({ st with
        files := { st.files with answer := some (answerLine nonce verdict) }
        frontends := st.frontends.set j ⟨seen, .answered verdict⟩ }, [])
    | _ => none

/-- What an event does, case by case. -/
inductive State.Steps (st : State) : Event → State → List (Nat × Str) → Prop
  | raise {kind : Kind} {argv : List Str} {nonce : Nonce}
      (fresh : nonce ∉ st.backends.map (·.nonce)) :
      st.Steps (.raise kind argv nonce)
        { st with backends := st.backends ++ [⟨kind, nonce, .ofArgv argv, .rmAnswer⟩] } []
  | backend {i : Nat} {reply printed : Option Str} {b b' : Backend} {files : Files}
      (here : st.backends[i]? = some b) (step : b.step st.files reply = some (files, b', printed)) :
      st.Steps (.backend i reply) { st with files, backends := st.backends.set i b' }
        (printed.map (i, ·)).toList
  | kill {i : Nat} {b : Backend} (here : st.backends[i]? = some b) :
      st.Steps (.kill i) { st with backends := st.backends.set i { b with pc := .ended } } []
  | look {seen : Str} (pending : st.files.pending = some seen) :
      st.Steps .look { st with frontends := st.frontends ++ [⟨seen, .looked⟩] } []
  | click {j : Nat} {verdict seen : Str} (here : st.frontends[j]? = some ⟨seen, .looked⟩) :
      st.Steps (.click j verdict) { st with frontends := st.frontends.set j ⟨seen,
        if verdict ∈ verdicts then .clicked verdict st.files.nonceOr else .refused⟩ } []
  | put {j : Nat} {verdict seen nonce : Str}
      (here : st.frontends[j]? = some ⟨seen, .clicked verdict nonce⟩) :
      st.Steps (.put j) { st with
        files := { st.files with answer := some (answerLine nonce verdict) }
        frontends := st.frontends.set j ⟨seen, .answered verdict⟩ } []

theorem State.steps {st st' : State} {e : Event} {out : List (Nat × Str)}
    (h : st.step e = some (st', out)) : st.Steps e st' out := by
  cases e with
  | raise kind argv nonce =>
      simp only [State.step] at h
      split at h
      · cases h
      · rename_i hfresh
        cases h
        exact .raise hfresh
  | backend i reply =>
      simp only [State.step, Option.bind_eq_bind, Option.bind_eq_some_iff, Option.pure_def,
        Option.some.injEq, Prod.mk.injEq] at h
      obtain ⟨b, hb, ⟨files, b', printed⟩, hs, rfl, rfl⟩ := h
      exact .backend hb hs
  | kill i =>
      simp only [State.step, Option.bind_eq_bind, Option.bind_eq_some_iff, Option.pure_def,
        Option.some.injEq, Prod.mk.injEq] at h
      obtain ⟨b, hb, rfl, rfl⟩ := h
      exact .kill hb
  | look =>
      simp only [State.step, Option.bind_eq_bind, Option.bind_eq_some_iff, Option.pure_def,
        Option.some.injEq, Prod.mk.injEq] at h
      obtain ⟨seen, hseen, rfl, rfl⟩ := h
      exact .look hseen
  | click j verdict =>
      simp only [State.step] at h
      split at h
      · rename_i seen hj
        cases h
        exact .click hj
      · cases h
  | put j =>
      simp only [State.step] at h
      split at h
      · rename_i seen verdict nonce hj
        cases h
        exact .put hj
      · cases h

/-! ## texts that are read back -/

/-- A hexadecimal digit is no separator of the shell, and `jesc` does not escape it. -/
theorem digitChar_plain {d : Nat} (hd : d < 16) :
    Nat.digitChar d ∉ [' ', '\n', '\\', '"'] := by
  interval_cases d <;> decide

theorem Nonce.text_plain (n : Nonce) : ∀ c ∈ n.text, c ∉ [' ', '\n', '\\', '"'] := by
  intro c hc
  obtain ⟨b, -, hb⟩ := List.mem_flatMap.mp hc
  have hlt : b.toNat < 256 := b.toNat_lt
  simp only [hexByte, List.mem_cons, List.not_mem_nil, or_false] at hb
  cases hb with
  | inl h => exact h ▸ digitChar_plain (by omega)
  | inr h => exact h ▸ digitChar_plain (by omega)

theorem hexByte_inj {a b : UInt8} (h : hexByte a = hexByte b) : a = b := by
  have ha : a.toNat < 256 := a.toNat_lt
  have hb : b.toNat < 256 := b.toNat_lt
  obtain ⟨hhigh, hlow⟩ := List.cons.inj h
  have hhigh' := congrArg hexValue hhigh
  have hlow' := congrArg hexValue (List.cons.inj hlow).1
  rw [hexValue_digitChar (by omega), hexValue_digitChar (by omega), Option.some.injEq] at hhigh' hlow'
  apply UInt8.toNat_inj.mp
  omega

theorem flatMap_hexByte_inj {s t : List UInt8} (h : s.flatMap hexByte = t.flatMap hexByte) :
    s = t := by
  induction s generalizing t with
  | nil =>
      cases t with
      | nil => rfl
      | cons b t => simp [hexByte] at h
  | cons a s ih =>
      cases t with
      | nil => simp [hexByte] at h
      | cons b t =>
          rw [List.flatMap_cons, List.flatMap_cons] at h
          obtain ⟨hab, hrest⟩ := List.append_inj h rfl
          rw [hexByte_inj hab, ih hrest]

/-- Different nonces have different texts. -/
theorem Nonce.text_inj {m n : Nonce} (h : m.text = n.text) : m = n := by
  obtain ⟨s, hs⟩ := m
  obtain ⟨t, ht⟩ := n
  obtain rfl : s = t := flatMap_hexByte_inj h
  rfl

/-- Two digits for each of the eight bytes. -/
theorem Nonce.length_text (n : Nonce) : n.text.length = 16 := by
  have hlen : (n.bytes.map fun b => (hexByte b).length) = n.bytes.map fun _ => 2 := rfl
  rw [text, List.length_flatMap, hlen]
  simp [n.length_eq]

/-- Text that `jesc` has nothing to escape in is passed on as it is. -/
theorem jesc_eq_self {s : Str} (h : ∀ c ∈ s, c ∉ ['\\', '"']) : jesc s = s := by
  induction s with
  | nil => rfl
  | cons c s ih =>
      have hc := h c List.mem_cons_self
      simp only [List.mem_cons, List.not_mem_nil, or_false, not_or] at hc
      have ih := ih fun c hc => h c (List.mem_cons_of_mem _ hc)
      simp only [jesc, List.flatMap_cons, if_neg hc.1, List.cons_append, List.nil_append,
        if_neg hc.2] at ih ⊢
      rw [ih]

/-- Text without newlines is captured as it is. -/
theorem capture_eq_self {s : Str} (h : '\n' ∉ s) : capture s = s := by
  rw [capture, List.rdropWhile_eq_self_iff]
  intro hne hlast
  rw [beq_iff_eq] at hlast
  exact h (hlast ▸ List.getLast_mem hne)

/-- The newline that ends a line is not captured. -/
theorem capture_line {s : Str} (h : '\n' ∉ s) : capture (s ++ ['\n']) = s := by
  rw [capture, List.rdropWhile_concat_pos _ _ _ (by rfl)]
  exact capture_eq_self h

theorem Nonce.capture_text (n : Nonce) : capture n.text = n.text :=
  capture_eq_self fun h => n.text_plain _ h (by decide)

theorem Nonce.jesc_text (n : Nonce) : jesc n.text = n.text :=
  jesc_eq_self fun c hc hmem => n.text_plain c hc (by simp at hmem ⊢; tauto)

/-- A published request names its nonce: it is the request of one prompt only. -/
theorem pendingJson_inj {m n : Nonce} {q r : Request} (h : pendingJson m q = pendingJson n r) :
    m = n := by
  simp only [pendingJson, jsonField, Nonce.jesc_text, Nonce.capture_text, List.cons_append,
    List.append_assoc, List.cons.injEq, true_and] at h
  have htail := List.append_cancel_left (List.append_cancel_left h)
  exact Nonce.text_inj (List.append_inj_left htail (by rw [m.length_text, n.length_text]))

/-- A verdict is one word. -/
theorem newline_not_mem_of_verdict {v : Str} (hv : v ∈ verdicts) : '\n' ∉ v := by
  revert v
  decide

/-- A waiting backend reads back the nonce and the verdict of an answer. -/
theorem read_answerLine {n v : Str} (hn : ∀ c ∈ n, c ∉ [' ', '\n']) (hv : v ∈ verdicts) :
    beforeSpace (capture (answerLine n v)) = n ∧ afterSpace (capture (answerLine n v)) = v := by
  have hline : capture (answerLine n v) = n ++ ' ' :: v := by
    have h : '\n' ∉ n ++ ' ' :: v := by
      simp only [List.mem_append, List.mem_cons, not_or]
      exact ⟨fun h => hn _ h (by decide), by decide, newline_not_mem_of_verdict hv⟩
    rw [← capture_line h, answerLine]
    simp
  have hsplit : splitFirst (· == ' ') (n ++ ' ' :: v) = (n, some v) :=
    splitFirst_append (fun c hc => by have := hn c hc; simp_all) (by rfl)
  simp [beforeSpace, afterSpace, hline, hsplit]

end Pfsnitch.Prompt
