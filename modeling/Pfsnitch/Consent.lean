import Pfsnitch.Prompt.Common
import Pfsnitch.Lib.Run
import Mathlib.Data.List.Nodup

/-!
# Pfsnitch.Consent

Consent binds to the prompt it was given for.

The prompts share one nonce file, and `pfsnitch-answer` reads it when the user
clicks: by then the nonce may be that of another prompt.  In a run whose clicks
find no nonce of another waiting prompt (`ClickOnOwn`), every verdict that a
waiting backend prints was given by a frontend that had read this backend's own
request (`consent_binds`); a prompt that is raised between the look and the click
takes the consent for itself (`consent_misdirected`).
-/

namespace Pfsnitch.Prompt

open Lib

variable {st st' : State} {e : Event} {out : List (Nat × Str)} {fs fs' : Files} {b b' : Backend}
  {f g : Frontend} {i j : Nat} {reply printed : Option Str} {n v : Str}

/-- The backend may still take an answer from the answer file. -/
def Backend.awaiting (b : Backend) : Bool :=
  b.kind.waits && match b.pc with
    | .rmAnswer | .putNonce | .putPending | .testAnswer _ | .catAnswer _ => true
    | _ => false

/-- A click finds no nonce of a waiting prompt, unless of the one it is about. -/
def ClickOnOwn (st : State) : Event → Prop
  | .click j _ => ∀ f ∈ st.frontends[j]?, ∀ b ∈ st.backends, b.awaiting →
      st.files.nonceOr = b.nonce.text → f.seen = b.pendingJson
  | _ => True

instance (st : State) : (e : Event) → Decidable (ClickOnOwn st e)
  | .click j _ => inferInstanceAs (Decidable (∀ f ∈ st.frontends[j]?, ∀ b ∈ st.backends,
      b.awaiting → st.files.nonceOr = b.nonce.text → f.seen = b.pendingJson))
  | .raise .. | .backend .. | .kill _ | .look | .put _ => .isTrue trivial

/-- A frontend that has read the backend's request gave this verdict. -/
def Consented (st : State) (b : Backend) (v : Str) : Prop :=
  ∃ f ∈ st.frontends, f.seen = b.pendingJson ∧ f.gave = some v

/-- What stands for a nonce in an answer: `none`, or the nonce of some prompt. -/
def Known (st : State) (n : Str) : Prop :=
  n = "none".toList ∨ ∃ k ∈ st.backends.map (·.nonce), k.text = n

/-- An answer that may be written: a verdict, under a nonce whose prompt, if it
still waits, it was given for. -/
structure Answers (st : State) (n v : Str) : Prop where
  verdict : v ∈ verdicts
  known : Known st n
  own : ∀ b ∈ st.backends, b.awaiting → b.nonce.text = n → Consented st b v

/-- What holds in every state of the prompts. -/
structure Inv (st : State) : Prop where
  nonces : (st.backends.map (·.nonce)).Nodup
  nonceFile : ∀ t ∈ st.files.nonce, Known st t
  answer : ∀ t ∈ st.files.answer, ∃ n v, t = answerLine n v ∧ Answers st n v
  clicked : ∀ f ∈ st.frontends, ∀ v n, f.pc = .clicked v n → Answers st n v
  terminal : ∀ b ∈ st.backends, b.pc = .readTty → b.kind.waits = false
  took : ∀ b ∈ st.backends, ∀ i v, b.pc = .takeAnswer i v → v ∈ verdicts
  taken : ∀ b ∈ st.backends, b.kind.waits → ∀ v ∈ b.taken, v ≠ timeout → Consented st b v

/-! ## what an event leaves as it was -/

/-- The prompts and the frontends stay who they are: a waiting prompt waited
before or drew a new nonce, and a verdict that was given stays given. -/
structure Follows (st st' : State) : Prop where
  backends : ∀ b' ∈ st'.backends, b'.nonce ∈ st.backends.map (·.nonce) → b'.awaiting →
    ∃ b ∈ st.backends, b.awaiting ∧ b'.nonce = b.nonce ∧ b'.request = b.request
  nonces : ∀ k ∈ st.backends.map (·.nonce), k ∈ st'.backends.map (·.nonce)
  frontends : ∀ f ∈ st.frontends, ∃ f' ∈ st'.frontends,
    f'.seen = f.seen ∧ ∀ v, f.gave = some v → f'.gave = some v

theorem Known.mono (h : Follows st st') (hn : Known st n) : Known st' n :=
  hn.imp_right fun ⟨k, hk, htext⟩ => ⟨k, h.nonces k hk, htext⟩

theorem Known.plain (h : Known st n) : ∀ c ∈ n, c ∉ [' ', '\n'] := by
  intro c hc
  cases h with
  | inl h =>
      subst h
      revert c
      decide
  | inr h =>
      obtain ⟨k, -, rfl⟩ := h
      intro hmem
      exact k.text_plain c hc (by simp at hmem ⊢; tauto)

theorem Known.nonce {k : Nonce} (h : Known st k.text) : k ∈ st.backends.map (·.nonce) := by
  cases h with
  | inl h =>
      have hlen := k.length_text
      rw [h] at hlen
      simp at hlen
  | inr h =>
      obtain ⟨k', hk', htext⟩ := h
      exact Nonce.text_inj htext ▸ hk'

theorem Consented.mono (h : Follows st st') (hnonce : b'.nonce = b.nonce)
    (hreq : b'.request = b.request) (hc : Consented st b v) : Consented st' b' v := by
  obtain ⟨f, hf, hseen, hgave⟩ := hc
  obtain ⟨f', hf', hseen', hgave'⟩ := h.frontends f hf
  refine ⟨f', hf', ?_, hgave' v hgave⟩
  rw [hseen', hseen, Backend.pendingJson, Backend.pendingJson, hnonce, hreq]

theorem Answers.mono (h : Follows st st') (ha : Answers st n v) : Answers st' n v where
  verdict := ha.verdict
  known := ha.known.mono h
  own b' hb' hwait hn := by
    subst hn
    obtain ⟨b, hb, hwait, hnonce, hreq⟩ := h.backends b' hb' ha.known.nonce hwait
    exact (ha.own b hb hwait (by rw [hnonce])).mono h hnonce hreq

/-! ## what a backend's step does -/

/-- The backend reads an answer under its nonce, with this verdict. -/
def Backend.Reads (fs : Files) (b : Backend) (v : Str) : Prop :=
  b.awaiting = b.kind.waits ∧ beforeSpace (capture (fs.answer.getD [])) = b.nonce.text ∧
    afterSpace (capture (fs.answer.getD [])) = v

/-- All that a step of a backend does to the shared files, to the backend and to
what is printed. -/
structure Backend.Steps (fs fs' : Files) (b b' : Backend) (printed : Option Str) : Prop where
  nonce : b'.nonce = b.nonce
  request : b'.request = b.request
  kind : b'.kind = b.kind
  nonceFile : ∀ t ∈ fs'.nonce, t ∈ fs.nonce ∨ t = b.nonce.text
  answer : ∀ t ∈ fs'.answer, t ∈ fs.answer
  awaiting : b'.awaiting → b.awaiting ∨ ∃ i v, b.pc = .takeAnswer i v ∧ v ∉ verdicts
  terminal : b'.pc = .readTty → b.kind.waits = false
  took : ∀ i v, b'.pc = .takeAnswer i v → b.Reads fs v
  taken : ∀ v ∈ b'.taken, v ≠ timeout → v ∈ b.taken ∨ b.pc = .readTty ∨ b.Reads fs v
  printed : ∀ v ∈ printed, v ∈ b.taken

/-- A round of `pf_wait` that ends without a verdict: the next one, or `timeout`. -/
theorem Backend.steps_nextRound (i : Nat) (hnonce : fs'.nonce = fs.nonce)
    (hanswer : ∀ t ∈ fs'.answer, t ∈ fs.answer)
    (hwait : b.awaiting = b.kind.waits ∨ ∃ j v, b.pc = .takeAnswer j v ∧ v ∉ verdicts) :
    Backend.Steps fs fs' b { b with pc := nextRound i } none := by
  unfold nextRound
  split
  · have hround (hw : ({ b with pc := .testAnswer (i + 1) } : Backend).awaiting = true) :
        b.awaiting = true ∨ ∃ j v, b.pc = .takeAnswer j v ∧ v ∉ verdicts := by
      refine hwait.imp_left fun h => ?_
      rw [h]
      simpa [awaiting] using hw
    exact {
      nonce := rfl
      request := rfl
      kind := rfl
      nonceFile t ht := .inl (hnonce ▸ ht)
      answer := hanswer
      awaiting := hround
      terminal := by simp
      took := by simp
      taken := by simp [taken]
      printed := by simp }
  · constructor <;> simp +contextual [taken, awaiting, hnonce, hanswer]

theorem Backend.steps (h : b.step fs reply = some (fs', b', printed)) :
    Backend.Steps fs fs' b b' printed := by
  obtain ⟨kind, nonce, request, pc⟩ := b
  cases pc with
  | rmAnswer | putNonce | readTty | rmPending _ | rmNonce _ | print _ =>
      obtain ⟨rfl, rfl, rfl⟩ : _ ∧ _ ∧ _ := by simpa [step] using h
      constructor <;> simp +contextual [taken, awaiting]
  | putPending =>
      obtain ⟨rfl, rfl, rfl⟩ : _ ∧ _ ∧ _ := by simpa [step] using h
      constructor <;> cases kind <;> simp +contextual [taken, awaiting, Kind.waits]
  | testAnswer i =>
      obtain ⟨rfl, rfl, hpc⟩ : fs' = fs ∧ printed = none ∧
          (b' = ⟨kind, nonce, request, .catAnswer i⟩ ∨ b' = ⟨kind, nonce, request, nextRound i⟩) := by
        simp only [step] at h
        split at h <;> grind
      obtain rfl | rfl := hpc
      · constructor <;> simp +contextual [taken, awaiting]
      · exact steps_nextRound i rfl (fun _ h => h) (.inl (by simp [awaiting]))
  | catAnswer i =>
      simp only [step] at h
      split at h
      · rename_i hgot
        obtain ⟨rfl, rfl, rfl⟩ : _ ∧ _ ∧ _ := by simpa using h
        constructor <;> simp +contextual [taken, awaiting, Reads, hgot]
      · obtain ⟨rfl, rfl, rfl⟩ : _ ∧ _ ∧ _ := by simpa using h
        exact steps_nextRound i rfl (fun _ h => h) (.inl (by simp [awaiting]))
  | takeAnswer i ans =>
      obtain ⟨rfl, rfl, rfl⟩ : _ ∧ _ ∧ _ := by simpa [step] using h
      by_cases hans : ans ∈ verdicts
      · rw [if_pos hans]
        constructor <;> simp +contextual [taken, awaiting]
      · rw [if_neg hans]
        exact steps_nextRound i rfl (by simp) (.inr ⟨i, ans, rfl, hans⟩)
  | ended => simp [step] at h

theorem Backend.steps_kill (fs : Files) (b : Backend) :
    Backend.Steps fs fs b { b with pc := .ended } none := by
  constructor <;> simp +contextual [taken, awaiting]

/-! ## every event keeps the invariant -/

/-- One backend goes on under the nonce it has. -/
theorem map_nonce_set (hb : st.backends[i]? = some b) (hnonce : b'.nonce = b.nonce) :
    (st.backends.set i b').map (·.nonce) = st.backends.map (·.nonce) := by
  apply List.ext_getElem?
  intro j
  rw [List.getElem?_map, List.getElem?_map]
  by_cases hij : i = j
  · subst hij
    obtain ⟨hi, -⟩ := List.getElem?_eq_some_iff.mp hb
    rw [List.getElem?_set_self hi, hb, Option.map_some, Option.map_some, hnonce]
  · rw [List.getElem?_set_ne hij]

theorem Backend.Steps.follows (hb : st.backends[i]? = some b)
    (h : Backend.Steps st.files fs' b b' printed) (hwait : b'.awaiting → b.awaiting) :
    Follows st { st with files := fs', backends := st.backends.set i b' } where
  backends c hc _ hcw := by
    cases List.mem_or_eq_of_mem_set hc with
    | inl hc => exact ⟨c, hc, hcw, rfl, rfl⟩
    | inr hc =>
        subst hc
        exact ⟨b, List.mem_of_getElem? hb, hwait hcw, h.nonce, h.request⟩
  nonces k hk := by
    rw [map_nonce_set hb h.nonce]
    exact hk
  frontends f hf := ⟨f, hf, rfl, fun _ h => h⟩

/-- An answer that a waiting backend reads under its nonce was given for it. -/
theorem Inv.reads (h : Inv st) (hb : b ∈ st.backends) (hr : b.Reads st.files v) :
    v ∈ verdicts ∧ (b.kind.waits → Consented st b v) := by
  obtain ⟨hwait, hgot, hans⟩ := hr
  cases hfile : st.files.answer with
  | none =>
      have hlen := b.nonce.length_text
      rw [← hgot, hfile] at hlen
      simp [capture, beforeSpace, splitFirst] at hlen
  | some t =>
      obtain ⟨n, w, rfl, ha⟩ := h.answer t (by simp [hfile])
      obtain ⟨hn, hw⟩ := read_answerLine ha.known.plain ha.verdict
      rw [hfile, Option.getD_some] at hgot hans
      rw [hgot] at hn
      rw [hans] at hw
      subst hn hw
      exact ⟨ha.verdict, fun hk => ha.own b hb (hwait.trans hk) rfl⟩

/-- A backend's step keeps the invariant. -/
theorem Inv.backend (h : Inv st) (hb : st.backends[i]? = some b)
    (hs : Backend.Steps st.files fs' b b' printed) :
    Inv { st with files := fs', backends := st.backends.set i b' } := by
  have hmem := List.mem_of_getElem? hb
  have hwait (hw : b'.awaiting) : b.awaiting :=
    (hs.awaiting hw).resolve_right fun ⟨i, v, hpc, hv⟩ => hv (h.took b hmem i v hpc)
  have hf := hs.follows hb hwait
  exact {
    nonces := by
      rw [map_nonce_set hb hs.nonce]
      exact h.nonces
    nonceFile := fun t ht => by
      cases hs.nonceFile t ht with
      | inl ht => exact (h.nonceFile t ht).mono hf
      | inr ht => exact ht ▸ .inr ⟨b.nonce, hf.nonces _ (List.mem_map_of_mem hmem), rfl⟩
    answer := fun t ht => by
      obtain ⟨n, v, heq, ha⟩ := h.answer t (hs.answer t ht)
      exact ⟨n, v, heq, ha.mono hf⟩
    clicked := fun f hmem v n hpc => (h.clicked f hmem v n hpc).mono hf
    terminal := fun c hc hpc => by
      cases List.mem_or_eq_of_mem_set hc with
      | inl hc => exact h.terminal c hc hpc
      | inr hc =>
          subst hc
          exact hs.kind ▸ hs.terminal hpc
    took := fun c hc j v hpc => by
      cases List.mem_or_eq_of_mem_set hc with
      | inl hc => exact h.took c hc j v hpc
      | inr hc =>
          subst hc
          exact (h.reads hmem (hs.took j v hpc)).1
    taken := fun c hc hk v hv hne => by
      cases List.mem_or_eq_of_mem_set hc with
      | inl hc => exact (h.taken c hc hk v hv hne).mono hf rfl rfl
      | inr hc =>
          subst hc
          have hk : b.kind.waits := hs.kind ▸ hk
          refine Consented.mono hf hs.nonce hs.request ?_
          obtain hv | hpc | hr := hs.taken v hv hne
          · exact h.taken b hmem hk v hv hne
          · simp [h.terminal b hmem hpc] at hk
          · exact (h.reads hmem hr).2 hk }

/-- A prompt is raised under a nonce of its own. -/
theorem Inv.raise (h : Inv st) (kind : Kind) (argv : List Str) {nonce : Nonce}
    (hfresh : nonce ∉ st.backends.map (·.nonce)) :
    Inv { st with backends := st.backends ++ [⟨kind, nonce, .ofArgv argv, .rmAnswer⟩] } := by
  have hf : Follows st
      { st with backends := st.backends ++ [⟨kind, nonce, .ofArgv argv, .rmAnswer⟩] } := {
    backends := fun c hc hold hcw => by
      cases List.mem_append.mp hc with
      | inl hc => exact ⟨c, hc, hcw, rfl, rfl⟩
      | inr hc =>
          rw [List.mem_singleton] at hc
          subst hc
          exact absurd hold hfresh
    nonces := fun k hk => by
      rw [List.map_append]
      exact List.mem_append_left _ hk
    frontends := fun f hf => ⟨f, hf, rfl, fun _ h => h⟩ }
  -- the new backend has taken nothing yet
  have hold {c : Backend} (hc : c ∈ st.backends ++ [⟨kind, nonce, .ofArgv argv, .rmAnswer⟩])
      (hpc : c.pc ≠ .rmAnswer) : c ∈ st.backends := by
    cases List.mem_append.mp hc with
    | inl hc => exact hc
    | inr hc =>
        rw [List.mem_singleton] at hc
        exact absurd (by rw [hc]) hpc
  exact {
    nonces := by
      rw [List.map_append, List.nodup_append]
      refine ⟨h.nonces, by simp, fun k hk k' hk' => ?_⟩
      rw [List.map_singleton, List.mem_singleton] at hk'
      rintro rfl
      rw [hk'] at hk
      exact hfresh hk
    nonceFile := fun t ht => (h.nonceFile t ht).mono hf
    answer := fun t ht => by
      obtain ⟨n, v, heq, ha⟩ := h.answer t ht
      exact ⟨n, v, heq, ha.mono hf⟩
    clicked := fun f hmem v n hpc => (h.clicked f hmem v n hpc).mono hf
    terminal := fun c hc hpc => h.terminal c (hold hc (by rw [hpc]; simp)) hpc
    took := fun c hc j v hpc => h.took c (hold hc (by rw [hpc]; simp)) j v hpc
    taken := fun c hc hk v hv hne => by
      have hpc : c.pc ≠ .rmAnswer := by
        intro hpc
        simp [Backend.taken, hpc] at hv
      exact (h.taken c (hold hc hpc) hk v hv hne).mono hf rfl rfl }

/-- More is known of the frontends, and an answer that may be written is written. -/
theorem Inv.frontends (h : Inv st) {files : Files} {frontends : List Frontend}
    (hf : Follows st { st with files, frontends }) (hnonce : files.nonce = st.files.nonce)
    (hanswer : ∀ t ∈ files.answer, t ∈ st.files.answer ∨
      ∃ n v, t = answerLine n v ∧ Answers { st with files, frontends } n v)
    (hclicked : ∀ f ∈ frontends, ∀ v n, f.pc = .clicked v n → f ∈ st.frontends ∨
      Answers { st with files, frontends } n v) :
    Inv { st with files, frontends } where
  nonces := h.nonces
  nonceFile t ht := (h.nonceFile t (hnonce ▸ ht)).mono hf
  answer t ht := by
    cases hanswer t ht with
    | inl ht =>
        obtain ⟨n, v, heq, ha⟩ := h.answer t ht
        exact ⟨n, v, heq, ha.mono hf⟩
    | inr ha => exact ha
  clicked f hmem v n hpc := by
    cases hclicked f hmem v n hpc with
    | inl hmem => exact (h.clicked f hmem v n hpc).mono hf
    | inr ha => exact ha
  terminal := h.terminal
  took := h.took
  taken b hb hk v hv hne := (h.taken b hb hk v hv hne).mono hf rfl rfl

/-- A frontend goes on: it has read what it read, and gave what it gave. -/
theorem follows_frontend (hj : st.frontends[j]? = some f) (hseen : g.seen = f.seen)
    (hgave : ∀ v, f.gave = some v → g.gave = some v) (files : Files) :
    Follows st { st with files, frontends := st.frontends.set j g } where
  backends b hb _ hwait := ⟨b, hb, hwait, rfl, rfl⟩
  nonces _ hk := hk
  frontends p hp := by
    obtain ⟨k, hk⟩ := List.mem_iff_getElem?.mp hp
    by_cases hjk : j = k
    · subst hjk
      obtain rfl := Option.some.inj (hj.symm.trans hk)
      obtain ⟨hlt, -⟩ := List.getElem?_eq_some_iff.mp hj
      exact ⟨g, List.mem_set hlt g, hseen, hgave⟩
    · exact ⟨p, List.mem_of_getElem? ((List.getElem?_set_ne hjk).trans hk), rfl, fun _ h => h⟩

/-- The nonce that `pfsnitch-answer` reads is that of a prompt, or `none`. -/
theorem Inv.nonceOr_known (h : Inv st) : Known st st.files.nonceOr := by
  unfold Files.nonceOr
  split
  · exact .inl rfl
  · rename_i hcap
    cases hfile : st.files.nonce with
    | none => simp [hfile, capture] at hcap
    | some t =>
        have ht := h.nonceFile t (by simp [hfile])
        have hself : capture t = t := capture_eq_self fun hmem => ht.plain _ hmem (by decide)
        rw [hfile, Option.getD_some, hself] at hcap
        exact hcap ▸ ht

/-- `pfsnitch-answer` reads the nonce, which is not that of another waiting prompt. -/
theorem Inv.click (h : Inv st) {seen verdict : Str}
    (hj : st.frontends[j]? = some ⟨seen, .looked⟩) (hverdict : verdict ∈ verdicts)
    (hown : ∀ b ∈ st.backends, b.awaiting → st.files.nonceOr = b.nonce.text → seen = b.pendingJson) :
    Inv { st with
      frontends := st.frontends.set j ⟨seen, .clicked verdict st.files.nonceOr⟩ } := by
  obtain ⟨hlt, -⟩ := List.getElem?_eq_some_iff.mp hj
  have hf := follows_frontend (g := ⟨seen, .clicked verdict st.files.nonceOr⟩) hj rfl
    (by simp [Frontend.gave]) st.files
  refine h.frontends hf rfl (fun t ht => .inl ht) fun f hmem v n hpc => ?_
  cases List.mem_or_eq_of_mem_set hmem with
  | inl hmem => exact .inl hmem
  | inr hmem =>
      subst hmem
      obtain ⟨rfl, rfl⟩ := FrontendPc.clicked.inj hpc
      exact .inr {
        verdict := hverdict
        known := h.nonceOr_known.mono hf
        own := fun b hb hwait hn =>
          ⟨_, List.mem_set hlt _, hown b hb hwait hn.symm, rfl⟩ }

/-- `pfsnitch-answer` refuses a word that is no verdict. -/
theorem Inv.refuse (h : Inv st) {seen : Str} (hj : st.frontends[j]? = some ⟨seen, .looked⟩) :
    Inv { st with frontends := st.frontends.set j ⟨seen, .refused⟩ } := by
  have hf := follows_frontend (g := ⟨seen, .refused⟩) hj rfl (by simp [Frontend.gave]) st.files
  refine h.frontends hf rfl (fun t ht => .inl ht) fun f hmem v n hpc => ?_
  cases List.mem_or_eq_of_mem_set hmem with
  | inl hmem => exact .inl hmem
  | inr hmem => simp [hmem] at hpc

/-- `pfsnitch-answer` writes the answer it has prepared. -/
theorem Inv.put (h : Inv st) {seen verdict nonce : Str}
    (hj : st.frontends[j]? = some ⟨seen, .clicked verdict nonce⟩) :
    Inv { st with
      files := { st.files with answer := some (answerLine nonce verdict) }
      frontends := st.frontends.set j ⟨seen, .answered verdict⟩ } := by
  have ha : Answers st nonce verdict := h.clicked _ (List.mem_of_getElem? hj) verdict nonce rfl
  have hf := follows_frontend (g := ⟨seen, .answered verdict⟩) hj rfl (by simp [Frontend.gave])
    { st.files with answer := some (answerLine nonce verdict) }
  refine h.frontends hf rfl (fun t ht => ?_) fun f hmem v n hpc => ?_
  · obtain rfl : answerLine nonce verdict = t := by simpa using ht
    exact .inr ⟨nonce, verdict, rfl, ha.mono hf⟩
  · cases List.mem_or_eq_of_mem_set hmem with
    | inl hmem => exact .inl hmem
    | inr hmem => simp [hmem] at hpc

/-- An event keeps the invariant, unless it is a click that finds the nonce of
another waiting prompt. -/
theorem Inv.step (h : Inv st) (hok : ClickOnOwn st e) (hstep : st.step e = some (st', out)) :
    Inv st' := by
  cases State.steps hstep with
  | raise hfresh => exact h.raise _ _ hfresh
  | backend hb hs => exact h.backend hb (Backend.steps hs)
  | @kill _ b hb => exact h.backend hb (Backend.steps_kill st.files b)
  | look =>
      refine h.frontends ?_ rfl (fun t ht => .inl ht) fun f hmem v n hpc => ?_
      · exact {
          backends := fun b hb _ hwait => ⟨b, hb, hwait, rfl, rfl⟩
          nonces := fun _ hk => hk
          frontends := fun f hf => ⟨f, List.mem_append_left _ hf, rfl, fun _ h => h⟩ }
      · cases List.mem_append.mp hmem with
        | inl hmem => exact .inl hmem
        | inr hmem =>
            rw [List.mem_singleton] at hmem
            simp [hmem] at hpc
  | @click j verdict seen hj =>
      by_cases hverdict : verdict ∈ verdicts
      · rw [if_pos hverdict]
        exact h.click hj hverdict (hok _ hj)
      · rw [if_neg hverdict]
        exact h.refuse hj
  | put hj => exact h.put hj

theorem Inv.initial : Inv State.initial := by
  constructor <;> simp [State.initial]

/-- A waiting backend prints what it has taken. -/
theorem taken_of_printed (hstep : st.step e = some (st', out)) (hout : (i, v) ∈ out)
    (hb : st.backends[i]? = some b) : v ∈ b.taken := by
  cases State.steps hstep with
  | @backend k reply printed c c' fs' hc hs =>
      obtain ⟨hp, rfl⟩ : v ∈ printed ∧ k = i := by
        simpa [Option.mem_toList] using hout
      obtain rfl := Option.some.inj (hc.symm.trans hb)
      exact (Backend.steps hs).printed v hp
  | raise | kill | look | click | put => cases hout

/-- Consent binds to the prompt it was given for.  In a run whose clicks find no
nonce of another waiting prompt, a verdict that a waiting backend prints was given
by a frontend that had read the request of this backend, and of no other. -/
theorem consent_binds (hrun : Run State.step ClickOnOwn State.initial st)
    (hstep : st.step e = some (st', out)) (hout : (i, v) ∈ out) (hne : v ≠ timeout)
    (hb : st.backends[i]? = some b) (hwaits : b.kind.waits) :
    ∃ f ∈ st.frontends, f.gave = some v ∧ f.seen = b.pendingJson ∧
      ∀ k c, st.backends[k]? = some c → f.seen = c.pendingJson → k = i := by
  have hinv : Inv st := hrun.invariant Inv.initial fun _ _ _ _ h hok hstep => h.step hok hstep
  obtain ⟨f, hf, hseen, hgave⟩ := hinv.taken b (List.mem_of_getElem? hb) hwaits v
    (taken_of_printed hstep hout hb) hne
  refine ⟨f, hf, hgave, hseen, fun k c hc hseen' => ?_⟩
  have hnonce : c.nonce = b.nonce := pendingJson_inj (hseen'.symm.trans hseen)
  have hget : (st.backends.map (·.nonce))[k]? = (st.backends.map (·.nonce))[i]? := by
    rw [List.getElem?_map, List.getElem?_map, hc, hb, Option.map_some, Option.map_some, hnonce]
  obtain ⟨hlt, -⟩ := List.getElem?_eq_some_iff.mp hc
  exact (List.getElem?_inj (by simpa using hlt) hinv.nonces).mp hget

/-- The nonce whose eight bytes are all `x`. -/
def nonceOf (x : UInt8) : Nonce := ⟨List.replicate 8 x, rfl⟩

/-- A prompt of the `file` backend is raised and publishes its request. -/
def published (i : Nat) (x : UInt8) (dst : String) : List Event :=
  .raise .file ["/usr/bin/curl".toList, "4242".toList, "curl".toList, dst.toList, "443".toList]
    (nonceOf x) :: List.replicate 3 (.backend i none)

/-- The backend finds its answer, takes it, cleans up and is about to print it. -/
def takes (i : Nat) : List Event := List.replicate 5 (.backend i none)

/-- The backend `i` waits for answers and prints `allow-app` next. -/
def printsAllow (i : Nat) (st : State) : Bool :=
  (st.step (.backend i none)).any (fun r => r.2 = [(i, "allow-app".toList)]) &&
    st.backends[i]?.any (·.kind.waits)

theorem exists_step_of_printsAllow (h : printsAllow i st = true) :
    ∃ st' b, st.step (.backend i none) = some (st', [(i, "allow-app".toList)]) ∧
      st.backends[i]? = some b ∧ b.kind.waits = true := by
  obtain ⟨hstep, hb⟩ := (Bool.and_eq_true _ _).mp h
  obtain ⟨⟨st', out⟩, hstep, hout⟩ := (Option.any_eq_true _ _).mp hstep
  obtain ⟨b, hb, hwaits⟩ := (Option.any_eq_true _ _).mp hb
  rw [decide_eq_true_eq] at hout
  exact ⟨st', b, hout ▸ hstep, hb, hwaits⟩

/-- Two prompts wait, each with a frontend that has read its request, and the second one's
frontend allows it. -/
theorem consent_binds_overlapping :
    ∃ (st : State) (b c : Backend), Run State.step ClickOnOwn State.initial st ∧
      st.backends[0]? = some c ∧ c.awaiting = true ∧ st.backends[1]? = some b ∧
      (∃ f ∈ st.frontends, f.seen = c.pendingJson) ∧
      ∃ f ∈ st.frontends, f.gave = some "allow-app".toList ∧ f.seen = b.pendingJson ∧
        ∀ k c, st.backends[k]? = some c → f.seen = c.pendingJson → k = 1 := by
  have hexec : (exec State.step ClickOnOwn State.initial (published 0 0xa5 "93.184.216.34" ++
      [.look] ++ published 1 0xb6 "192.0.2.1" ++ [.look, .backend 0 none] ++
      [.click 1 "allow-app".toList, .put 1] ++ takes 1)).any (fun st => printsAllow 1 st &&
        st.backends[0]?.any fun c => c.awaiting &&
          st.frontends.any fun f => decide (f.seen = c.pendingJson)) = true := by
    decide +kernel
  obtain ⟨st, hrun, hp⟩ := exists_run_of_exec hexec
  obtain ⟨hprints, hother⟩ := (Bool.and_eq_true _ _).mp hp
  obtain ⟨st', b, hstep, hb, hwaits⟩ := exists_step_of_printsAllow hprints
  obtain ⟨c, hc, hother⟩ := (Option.any_eq_true _ _).mp hother
  obtain ⟨hawaits, hlook⟩ := (Bool.and_eq_true _ _).mp hother
  obtain ⟨f, hf, hseen⟩ := List.any_eq_true.mp hlook
  have hrun := hrun.mono fun _ _ h => h.1
  exact ⟨st, b, c, hrun, hc, hawaits, hb, ⟨f, hf, of_decide_eq_true hseen⟩,
    consent_binds hrun hstep List.mem_cons_self (by decide) hb hwaits⟩

/-- A frontend reads the request of one prompt; a second prompt is raised; the user
allows what was read, and the second prompt prints the verdict, although nobody
has read its request. -/
theorem consent_misdirected :
    ∃ (st st' : State) (b : Backend), Run State.step (fun _ _ => True) State.initial st ∧
      st.step (.backend 1 none) = some (st', [(1, "allow-app".toList)]) ∧
      st.backends[1]? = some b ∧ b.kind.waits = true ∧
      (∀ f ∈ st.frontends, f.seen ≠ b.pendingJson) ∧
      ∃ f ∈ st.frontends, f.gave = some "allow-app".toList ∧
        ∃ c ∈ st.backends[0]?, f.seen = c.pendingJson := by
  have hexec : (exec State.step (fun _ _ => True) State.initial
      (published 0 0xa5 "93.184.216.34" ++ [.look] ++ published 1 0xb6 "192.0.2.1" ++
        [.click 0 "allow-app".toList, .put 0] ++ takes 1)).any (fun st => printsAllow 1 st &&
          decide ((∀ f ∈ st.frontends, ∀ b ∈ st.backends[1]?, f.seen ≠ b.pendingJson) ∧
            ∃ f ∈ st.frontends, f.gave = some "allow-app".toList ∧
              ∃ c ∈ st.backends[0]?, f.seen = c.pendingJson)) = true := by
    decide +kernel
  obtain ⟨st, hrun, hp⟩ := exists_run_of_exec hexec
  obtain ⟨hprints, hown⟩ := (Bool.and_eq_true _ _).mp hp
  obtain ⟨st', b, hstep, hb, hwaits⟩ := exists_step_of_printsAllow hprints
  obtain ⟨hnone, hother⟩ := of_decide_eq_true hown
  exact ⟨st, st', b, hrun.mono fun _ _ _ => trivial, hstep, hb, hwaits,
    fun f hf => hnone f hf b hb, hother⟩

end Pfsnitch.Prompt
