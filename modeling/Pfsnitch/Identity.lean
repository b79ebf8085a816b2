import Pfsnitch.Lib.Memo
import Pfsnitch.Lib.Utf8
import Pfsnitch.Policy.Reload

/-!
# Pfsnitch.Identity

Is the binary behind a rule still the one that was approved?

`Identity::hash` runs `sha256` once and keeps the digest as long as the size and
the modification time of the file stay the same.  Only whole seconds of that
time are kept, and it can be set: a replacement of the same size and time is
taken for the original (`replacement_missed`).  One of another size or second is
noticed (`replacements_noticed`).
-/

namespace Pfsnitch

open Lib

/-- What `metadata` tells of a file. -/
structure Metadata where
  len : Nat
  /-- The modification time, in nanoseconds since the epoch. -/
  modified : Int
deriving DecidableEq

/-- `duration_since(UNIX_EPOCH)` in whole seconds; there is none before the epoch. -/
def Metadata.mtimeSecs (md : Metadata) : Option Nat :=
  if 0 ≤ md.modified then some (md.modified.toNat / 1000000000) else none

/-- `Identity`: the digest of each path, under its modification time and size. -/
structure Identity where
  cache : AList fun _ : Str => (Nat × Nat) × Str

theorem Digest.text_inj {a b : Digest} (h : a.text = b.text) : a = b := by
  cases a
  cases b
  cases h
  rfl

namespace Identity

def new : Identity := ⟨∅⟩

/-- Run `sha256` and keep what it prints; `out` is its output if it succeeds. -/
def rehash (i : Identity) (path : Str) (mtime size : Nat) (out : Option (List UInt8)) :
    Identity × Option Str :=
  match out with
  | some stdout =>
    let h := trim (utf8Lossy stdout)
    if h = [] then (i, none)
    else (⟨insertBounded 2048 i.cache path ((mtime, size), h)⟩, some h)
  | none => (i, none)

/-- `Identity::hash`, for what `metadata` and (if it is run) `sha256` answer. -/
def hash (i : Identity) (path : Str) (md : Option Metadata) (out : Option (List UInt8)) :
    Identity × Option Str :=
  match md with
  | some md =>
    match md.mtimeSecs with
    | some mtime =>
      match i.cache.lookup path with
      | some ((m, s), h) =>
        if m = mtime ∧ s = md.len then (i, some h) else i.rehash path mtime md.len out
      | none => i.rehash path mtime md.len out
    | none => (i, none)
  | none => (i, none)

/-! ## files that are replaced -/

/-- One version of the file at a path. -/
structure Version where
  content : List UInt8
  modified : Int
deriving DecidableEq

def Version.metadata (v : Version) : Metadata := ⟨v.content.length, v.modified⟩

/-- The modification time and size a digest is kept under. -/
def Version.stamp (v : Version) : Option (Nat × Nat) :=
  v.metadata.mtimeSecs.map (·, v.content.length)

/-- A call of `Identity::hash`: whether the metadata can be had, and whether `sha256`
succeeds if it is run. -/
structure Call where
  path : Str
  statOk : Bool
  runOk : Bool
deriving DecidableEq

inductive Event where
  /-- The file at a path is replaced, or removed. -/
  | replace (path : Str) (file : Option Version)
  | hash (c : Call)
deriving DecidableEq

/-- The files and the digests kept. -/
structure World where
  files : Str → Option Version
  ident : Identity

variable (sha256 : List UInt8 → Digest)

/-- One call; `sha256` prints the digest of the file as it is. -/
def Call.run (c : Call) (w : World) : Identity × Option Str :=
  w.ident.hash c.path (if c.statOk then (w.files c.path).map Version.metadata else none)
    (if c.runOk then
      (w.files c.path).map fun v => utf8Bytes ((sha256 v.content).text ++ ['\n'])
    else none)

def Event.step (w : World) : Event → World
  | .replace path file => { w with files := Function.update w.files path file }
  | .hash c => { w with ident := (c.run sha256 w).1 }

/-- The world after a history that begins with no digest kept. -/
def after (files : Str → Option Version) (es : List Event) : World :=
  es.foldl (Event.step sha256) ⟨files, .new⟩

/-- A digest that the call reports is that of the file as it is. -/
def Call.Truthful (c : Call) (w : World) : Prop :=
  ∀ h, (c.run sha256 w).2 = some h →
    ∃ v, w.files c.path = some v ∧ h = (sha256 v.content).text

/-! ## the versions behind the digests -/

/-- The files, and for each path the version its digest was made from. -/
structure Memory where
  files : Str → Option Version
  versions : AList fun _ : Str => Version

/-- A call remembers the version it finds, unless one of its stamp is remembered. -/
def Memory.call (r : Memory) (c : Call) : Memory :=
  match if c.statOk then r.files c.path else none with
  | some v =>
    if v.stamp.isSome ∧ c.runOk ∧ ∀ g ∈ r.versions.lookup c.path, g.stamp ≠ v.stamp then
      { r with versions := insertBounded 2048 r.versions c.path v }
    else r
  | none => r

def Memory.step (r : Memory) : Event → Memory
  | .replace path file => { r with files := Function.update r.files path file }
  | .hash c => r.call c

/-- What a history leaves remembered. -/
def remembered (files : Str → Option Version) (es : List Event) : Memory :=
  es.foldl Memory.step ⟨files, ∅⟩

/-- The file has the second and the size of the version remembered, but another digest. -/
def Call.Mistaken (c : Call) (r : Memory) : Prop :=
  c.statOk ∧ ∃ v ∈ r.files c.path, ∃ g ∈ r.versions.lookup c.path,
    g.stamp = v.stamp ∧ sha256 g.content ≠ sha256 v.content

/-- The digests kept are those of the versions remembered. -/
structure Follows (w : World) (r : Memory) : Prop where
  files : w.files = r.files
  cache : Remembers (fun v => v.stamp.map (·, (sha256 v.content).text)) w.ident.cache r.versions

variable {sha256} {w : World} {r : Memory}

/-- The digest is what is left of the output of `sha256`. -/
theorem rehash_digest (i : Identity) (path : Str) (mtime size : Nat) (d : Digest) :
    i.rehash path mtime size (some (utf8Bytes (d.text ++ ['\n']))) =
      (⟨insertBounded 2048 i.cache path ((mtime, size), d.text)⟩, some d.text) := by
  have htrim : trim (utf8Lossy (utf8Bytes (d.text ++ ['\n']))) = d.text := by
    rw [utf8Lossy_utf8Bytes, trim_concat (by decide),
      trim_eq_self_of_token fun c hc => (Ledger.digest_token d c hc).1]
  simp only [rehash, htrim, if_neg d.ne_nil]

/-- The stamp is what `hash` compares. -/
theorem Version.stamp_eq {v : Version} {mtime : Nat} (h : v.metadata.mtimeSecs = some mtime) :
    v.stamp = some (mtime, v.metadata.len) := by
  rw [Version.stamp, h]
  rfl

/-- What one call reports and keeps: nothing, the digest of the version remembered, or that of
the file. -/
inductive Call.Outcome (sha256 : List UInt8 → Digest) (c : Call) (w : World) (r : Memory) : Prop
  | silent (run : c.run sha256 w = (w.ident, none)) (call : r.call c = r)
      (kept : ¬ c.Mistaken sha256 r)
  | repeats (v g : Version) (stat : c.statOk) (file : r.files c.path = some v)
      (version : r.versions.lookup c.path = some g) (same : g.stamp = v.stamp)
      (run : c.run sha256 w = (w.ident, some (sha256 g.content).text)) (call : r.call c = r)
  | makes (v : Version) (s : Nat × Nat) (file : r.files c.path = some v) (stamp : v.stamp = some s)
      (kept : ¬ c.Mistaken sha256 r)
      (run : c.run sha256 w =
        (⟨insertBounded 2048 w.ident.cache c.path (s, (sha256 v.content).text)⟩,
          some (sha256 v.content).text))
      (call : r.call c = { r with versions := insertBounded 2048 r.versions c.path v })

/-- Without metadata there is nothing to report. -/
theorem outcome_absent {c : Call}
    (h : (if c.statOk then r.files c.path else none) = none)
    (hrun : c.run sha256 w = (w.ident, none)) : c.Outcome sha256 w r := by
  refine .silent hrun (by rw [Memory.call, h]) ?_
  rintro ⟨hstat, v, hv, -⟩
  rw [if_pos hstat] at h
  cases h.symm.trans hv

/-- A file from before the epoch has no stamp. -/
theorem Follows.outcome_unstamped (h : Follows sha256 w r) {c : Call} {v : Version}
    (hstat : c.statOk) (hv : r.files c.path = some v) (hs : v.stamp = none)
    (hrun : c.run sha256 w = (w.ident, none)) : c.Outcome sha256 w r := by
  refine .silent hrun ?_ ?_
  · rw [Memory.call, if_pos hstat, hv]
    simp [hs]
  · rintro ⟨-, v', hv', g, hg, hsame, -⟩
    obtain ⟨e, hkept, -⟩ := h.cache.found hg
    cases hv.symm.trans hv'
    rw [hsame, hs] at hkept
    cases hkept

/-- `sha256` is run when no version of this stamp is remembered: it fails, or its digest is
kept and the version remembered. -/
theorem outcome_rehash {c : Call} {v : Version} {s : Nat × Nat}
    (hstat : c.statOk) (hv : r.files c.path = some v) (hs : v.stamp = some s)
    (hnone : ∀ g ∈ r.versions.lookup c.path, g.stamp ≠ v.stamp)
    (hrun : c.run sha256 w = w.ident.rehash c.path s.1 s.2
      (if c.runOk then some (utf8Bytes ((sha256 v.content).text ++ ['\n'])) else none)) :
    c.Outcome sha256 w r := by
  have hkept : ¬ c.Mistaken sha256 r := by
    rintro ⟨-, v', hv', g, hg, hsame, -⟩
    cases hv.symm.trans hv'
    exact hnone g hg hsame
  cases hok : c.runOk with
  | false =>
      refine .silent (by rw [hrun, hok]; rfl) ?_ hkept
      rw [Memory.call, if_pos hstat, hv]
      simp [hok]
  | true =>
      refine .makes v s hv hs hkept ?_ ?_
      · rw [hrun, if_pos hok, rehash_digest]
      · rw [Memory.call, if_pos hstat, hv]
        simp only
        rw [if_pos ⟨by rw [hs]; rfl, hok, hnone⟩]

/-- A file with a stamp: the digest kept for its path is compared by it. -/
theorem Follows.outcome_stamped (h : Follows sha256 w r) {c : Call} {v : Version} {mtime : Nat}
    (hstat : c.statOk) (hv : r.files c.path = some v) (hsecs : v.metadata.mtimeSecs = some mtime)
    (hrun : c.run sha256 w = w.ident.hash c.path (some v.metadata)
      (if c.runOk then some (utf8Bytes ((sha256 v.content).text ++ ['\n'])) else none)) :
    c.Outcome sha256 w r := by
  have hs := Version.stamp_eq hsecs
  simp only [Identity.hash, hsecs] at hrun
  cases hg : r.versions.lookup c.path with
  | none =>
      rw [h.cache.missing hg] at hrun
      exact outcome_rehash hstat hv hs (by simp [hg]) hrun
  | some g =>
      obtain ⟨e, he, hlookup⟩ := h.cache.found hg
      obtain ⟨⟨m, size⟩, hgs, rfl⟩ := Option.map_eq_some_iff.mp he
      rw [hlookup] at hrun
      by_cases hsame : m = mtime ∧ size = v.metadata.len
      · have hstamp : g.stamp = v.stamp := by rw [hgs, hs, hsame.1, hsame.2]
        simp only [if_pos hsame] at hrun
        refine .repeats v g hstat hv hg hstamp hrun ?_
        rw [Memory.call, if_pos hstat, hv]
        simp [hg, hstamp]
      · have hnone : ∀ g ∈ r.versions.lookup c.path, g.stamp ≠ v.stamp := by
          rw [hg]
          rintro g' ⟨⟩ heq
          rw [hgs, hs] at heq
          cases heq
          exact hsame ⟨rfl, rfl⟩
        simp only [if_neg hsame] at hrun
        exact outcome_rehash hstat hv hs hnone hrun

theorem Follows.outcome (h : Follows sha256 w r) (c : Call) : c.Outcome sha256 w r := by
  have hrun : c.run sha256 w = w.ident.hash c.path
      (if c.statOk then (r.files c.path).map Version.metadata else none)
      (if c.runOk then
        (r.files c.path).map fun v => utf8Bytes ((sha256 v.content).text ++ ['\n'])
      else none) := by
    rw [← h.files]
    rfl
  by_cases hstat : c.statOk
  · cases hv : r.files c.path with
    | none =>
        refine outcome_absent (by rw [if_pos hstat, hv]) ?_
        rw [hrun, if_pos hstat, hv]
        rfl
    | some v =>
        rw [if_pos hstat, hv, Option.map_some, Option.map_some] at hrun
        cases hsecs : v.metadata.mtimeSecs with
        | none =>
            have hs : v.stamp = none := by
              rw [Version.stamp, hsecs]
              rfl
            exact h.outcome_unstamped hstat hv hs (by rw [hrun, Identity.hash, hsecs])
        | some mtime => exact h.outcome_stamped hstat hv hsecs hrun
  · refine outcome_absent (if_neg hstat) ?_
    rw [hrun, if_neg hstat]
    rfl

/-! ## histories -/

/-- What one call reports and keeps. -/
theorem Follows.call (h : Follows sha256 w r) (c : Call) :
    (c.Truthful sha256 w ↔ ¬ c.Mistaken sha256 r) ∧
      Follows sha256 ⟨w.files, (c.run sha256 w).1⟩ (r.call c) := by
  unfold Call.Truthful
  cases h.outcome c with
  | silent hrun hcall hkept =>
      rw [hrun, hcall]
      exact ⟨⟨fun _ => hkept, fun _ d hd => by cases hd⟩, h⟩
  | repeats v g hstat hv hg hsame hrun hcall =>
      rw [hrun, hcall]
      refine ⟨⟨?_, fun hkept d hd => ?_⟩, h⟩
      · rintro hnoticed ⟨-, v', hv', g', hg', -, hne⟩
        cases hv.symm.trans hv'
        cases hg.symm.trans hg'
        obtain ⟨v', hv', heq⟩ := hnoticed _ rfl
        rw [h.files, hv] at hv'
        cases hv'
        exact hne (Digest.text_inj heq)
      · cases hd
        refine ⟨v, h.files ▸ hv, ?_⟩
        by_contra hne
        exact hkept ⟨hstat, v, hv, g, hg, hsame, fun heq => hne (by rw [heq])⟩
  | makes v s hv hs hkept hrun hcall =>
      rw [hrun, hcall]
      refine ⟨⟨fun _ => hkept, fun _ d hd => ?_⟩, h.files, h.cache.insert (by rw [hs]; rfl)⟩
      cases hd
      exact ⟨v, h.files ▸ hv, rfl⟩

/-- One event. -/
theorem Follows.step (h : Follows sha256 w r) (e : Event) :
    Follows sha256 (e.step sha256 w) (r.step e) := by
  cases e with
  | replace path file =>
      refine ⟨?_, h.cache⟩
      change Function.update w.files path file = Function.update r.files path file
      rw [h.files]
  | hash c => exact (h.call c).2

/-- Any history: the digests kept are those of the versions remembered. -/
theorem follows_after (files : Str → Option Version) (es : List Event) :
    Follows sha256 (after sha256 files es) (remembered files es) := by
  induction es using List.reverseRecOn with
  | nil => exact ⟨rfl, remembers_empty⟩
  | append_singleton es e ih =>
      rw [after, remembered, List.foldl_concat, List.foldl_concat]
      exact ih.step e

/-- A call is truthful unless it finds a file with the second and the size, but not the
digest, of the version remembered for the path. -/
theorem truthful_iff (files : Str → Option Version) (es : List Event) (c : Call) :
    c.Truthful sha256 (after sha256 files es) ↔ ¬ c.Mistaken sha256 (remembered files es) :=
  ((follows_after files es).call c).1

/-- **A replaced binary is noticed**: after any history a call reports no digest but that of
the file as it is, if the file differs in size or in the second of its modification time
from the version remembered for the path, or has its content. -/
theorem replacements_noticed {files : Str → Option Version} {es : List Event} {c : Call}
    (h : ∀ v ∈ (remembered files es).files c.path, ∀ g ∈ (remembered files es).versions.lookup c.path,
      g.stamp = v.stamp → g.content = v.content) : c.Truthful sha256 (after sha256 files es) := by
  rw [truthful_iff]
  rintro ⟨-, v, hv, g, hg, hsame, hne⟩
  exact hne (by rw [h v hv g hg hsame])

/-- The digest of the one-byte file `a`. -/
def digestA : Digest where
  text := "ca978112ca1bbdcafac231b39a23dc4da786eff8147c4e72b9807785afee48bb".toList
  hex := by decide +kernel
  ne_nil := by decide

/-- The digest of the one-byte file `b`. -/
def digestB : Digest where
  text := "3e23e8160039594a33894f6564e1b1348bbd7a0088d42c4acb73eeaed59c009d".toList
  hex := by decide +kernel
  ne_nil := by decide

/-- The path of a binary. -/
def appPath : Str := "/usr/local/bin/app".toList

/-- The file is `a`, a call hashes it, and it is replaced by `b`, of this modification time. -/
def replacedAt (modified : Int) : List Event :=
  [.replace appPath (some ⟨[97], 1700000000500000000⟩), .hash ⟨appPath, true, true⟩,
    .replace appPath (some ⟨[98], modified⟩)]

/-- A second later another file takes the place of the one approved, and is noticed. -/
theorem replacements_noticed_later :
    let sha256 (content : List UInt8) : Digest := if content = [97] then digestA else digestB
    Call.Truthful sha256 ⟨appPath, true, true⟩
      (after sha256 (fun _ => none) (replacedAt 1700000001500000000)) := by
  intro sha256
  refine replacements_noticed fun v hv g hg hsame => ?_
  obtain rfl : ⟨[98], 1700000001500000000⟩ = v := Option.some.inj hv
  obtain rfl : ⟨[97], 1700000000500000000⟩ = g := Option.some.inj hg
  exact absurd hsame (by decide)

/-- A file of the same size and modification time takes the place of the one approved, and
goes by its digest. -/
theorem replacement_missed : ¬ ∀ sha256 : List UInt8 → Digest,
    sha256 [97] = digestA → sha256 [98] = digestB →
      ∀ files es (c : Call), c.Truthful sha256 (after sha256 files es) := by
  intro h
  let sha256 (content : List UInt8) : Digest := if content = [97] then digestA else digestB
  let es := replacedAt 1700000000500000000
  have htruthful := h sha256 rfl rfl (fun _ => none) es ⟨appPath, true, true⟩
  rw [truthful_iff] at htruthful
  exact htruthful ⟨rfl, ⟨[98], 1700000000500000000⟩, rfl, ⟨[97], 1700000000500000000⟩, rfl, rfl,
    by decide⟩

end Identity

end Pfsnitch
