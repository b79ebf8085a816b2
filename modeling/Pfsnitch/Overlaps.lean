import Pfsnitch.Consent

/-!
# Pfsnitch.Overlaps

Prompts that overlap.

All prompts publish their request and their nonce in the same two files, remove
them in `pf_cleanup`, and begin with the removal of whatever answer there is.  A
prompt that starts while another is out takes its place, and the other can no
longer be answered (`prompts_destroyed`).  As long as each prompt publishes its
nonce when no other is out, and begins when no answer for another lies there, no
step of a prompt harms another one (`prompts_undisturbed`).
-/

namespace Pfsnitch.Prompt

open Lib

variable {st st' : State} {e : Event} {out : List (Nat × Str)} {fs fs' : Files} {b b' c : Backend}
  {i j : Nat} {reply printed : Option Str} {n v : Str}

/-- How far a backend has got: the steps of `pf_init`, then it asks, then what is
left of `pf_cleanup`, and what comes after it. -/
def Backend.phase (b : Backend) : Nat :=
  match b.pc with
  | .rmAnswer => 0
  | .putNonce => 1
  | .putPending => 2
  | .testAnswer _ | .catAnswer _ | .takeAnswer .. | .readTty | .rmPending _ => 3
  | .rmNonce _ => 4
  | .print _ => 5
  | .ended => 6

/-- The backend is between the start of `pf_init` and the end of `pf_cleanup`. -/
def Backend.Live (b : Backend) : Prop := b.phase ≤ 4

/-- The backend's nonce is published and not yet withdrawn. -/
def Backend.Out (b : Backend) : Prop := 2 ≤ b.phase ∧ b.phase ≤ 4

/-- The backend's request is published and not yet withdrawn. -/
def Backend.Asking (b : Backend) : Prop := b.phase = 3

instance (b : Backend) : Decidable b.Live := inferInstanceAs (Decidable (_ ≤ _))
instance (b : Backend) : Decidable b.Out := inferInstanceAs (Decidable (_ ∧ _))
instance (b : Backend) : Decidable b.Asking := inferInstanceAs (Decidable (_ = _))

/-- The answer that lies there carries this nonce. -/
def Files.AnswerFor (fs : Files) (n : Nonce) : Prop :=
  ∃ t ∈ fs.answer, beforeSpace (capture t) = n.text

instance (fs : Files) (n : Nonce) : Decidable (fs.AnswerFor n) :=
  inferInstanceAs (Decidable (∃ t ∈ fs.answer, _))

/-- What is there for the backend is there still. -/
structure Files.Spares (fs fs' : Files) (c : Backend) : Prop where
  request : fs.pending = some c.pendingJson → fs'.pending = fs.pending
  nonce : fs.nonce = some c.nonce.text → fs'.nonce = fs.nonce
  answer : fs.AnswerFor c.nonce → fs'.answer = fs.answer

/-- If the event is a step of a prompt, it spares every other live one. -/
def Harmless (st : State) (e : Event) (st' : State) : Prop :=
  ∀ i reply, e = .backend i reply → ∀ b ∈ st.backends[i]?, ∀ c ∈ st.backends,
    c.nonce ≠ b.nonce → c.Live → st.files.Spares st'.files c

/-- Every prompt that asks can be read and answered. -/
def Answerable (st : State) : Prop :=
  ∀ b ∈ st.backends, b.Asking →
    st.files.pending = some b.pendingJson ∧ st.files.nonce = some b.nonce.text

instance (st : State) : Decidable (Answerable st) :=
  inferInstanceAs (Decidable (∀ b ∈ st.backends, b.Asking → _ ∧ _))

/-- No prompt begins while an answer for another lies there, and none publishes its
nonce while that of another is out. -/
def Undisturbed (st : State) : Event → Prop
  | .backend i _ => ∀ b ∈ st.backends[i]?, ∀ c ∈ st.backends, c.nonce ≠ b.nonce →
      (b.pc = .rmAnswer → c.Live → ¬ st.files.AnswerFor c.nonce) ∧ (b.pc = .putNonce → ¬ c.Out)
  | _ => True

instance (st : State) : (e : Event) → Decidable (Undisturbed st e)
  | .backend i _ => inferInstanceAs (Decidable (∀ b ∈ st.backends[i]?, ∀ c ∈ st.backends,
      c.nonce ≠ b.nonce → (b.pc = .rmAnswer → c.Live → ¬ st.files.AnswerFor c.nonce) ∧
        (b.pc = .putNonce → ¬ c.Out)))
  | .raise .. | .kill _ | .look | .click .. | .put _ => .isTrue trivial

/-! ## what a step does to the files -/

/-- What a backend does to the files, and the phase that it reaches. -/
inductive Backend.Touches (fs : Files) (b : Backend) : Files → Nat → Prop
  | start (h : b.phase = 0) : Touches fs b { fs with answer := none } 1
  | nonce (h : b.phase = 1) : Touches fs b { fs with nonce := some b.nonce.text } 2
  | request (h : b.phase = 2) : Touches fs b { fs with pending := some b.pendingJson } 3
  | wait (h : b.phase = 3) : Touches fs b fs 3
  | take (h : b.phase = 3) : Touches fs b { fs with answer := none } 3
  | withdraw (h : b.phase = 3) : Touches fs b { fs with pending := none } 4
  | forget (h : b.phase = 4) : Touches fs b { fs with nonce := none } 5
  | leave : Touches fs b fs 6

theorem phase_nextRound (kind : Kind) (nonce : Nonce) (request : Request) (i : Nat) :
    Backend.phase ⟨kind, nonce, request, nextRound i⟩ = 3 := by
  unfold nextRound
  split
  · rfl
  · rfl

theorem Backend.touches (h : b.step fs reply = some (fs', b', printed)) :
    b.Touches fs fs' b'.phase := by
  obtain ⟨kind, nonce, request, pc⟩ := b
  cases pc with
  | rmAnswer =>
      cases h
      exact .start rfl
  | putNonce =>
      cases h
      exact .nonce rfl
  | putPending =>
      cases h
      cases kind
      · exact .request rfl
      · exact .request rfl
      · exact .request rfl
  | testAnswer i =>
      simp only [step] at h
      split at h
      · cases h
        exact .wait rfl
      · cases h
        rw [phase_nextRound]
        exact .wait rfl
  | catAnswer i =>
      simp only [step] at h
      split at h
      · cases h
        exact .wait rfl
      · cases h
        rw [phase_nextRound]
        exact .wait rfl
  | takeAnswer i ans =>
      cases h
      by_cases hans : ans ∈ verdicts
      · rw [if_pos hans]
        exact .take rfl
      · rw [if_neg hans, phase_nextRound]
        exact .take rfl
  | readTty =>
      cases h
      exact .wait rfl
  | rmPending ans =>
      cases h
      exact .withdraw rfl
  | rmNonce ans =>
      cases h
      exact .forget rfl
  | print ans =>
      cases h
      exact .leave
  | ended => cases h

/-- A backend gets no further back. -/
theorem Backend.Touches.phase_le {k : Nat} (h : b.Touches fs fs' k) (hk : b.phase ≤ 6) :
    b.phase ≤ k := by
  cases h <;> omega

theorem Backend.phase_le (b : Backend) : b.phase ≤ 6 := by
  unfold phase
  split <;> omega

/-- The nonce is published, withdrawn or left alone. -/
theorem Backend.Touches.nonceFile {k : Nat} (h : b.Touches fs fs' k) :
    fs'.nonce = fs.nonce ∧ (k = 2 ∨ k = 3 ∨ k = 4 → b.Out) ∨
      (b.phase = 1 ∧ k = 2 ∧ fs'.nonce = some b.nonce.text) ∨
      (b.phase = 4 ∧ k = 5 ∧ fs'.nonce = none) := by
  unfold Out
  cases h with
  | nonce h => exact .inr (.inl ⟨h, rfl, rfl⟩)
  | forget h => exact .inr (.inr ⟨h, rfl, rfl⟩)
  | start h | request h | wait h | take h | withdraw h => exact .inl ⟨rfl, by omega⟩
  | leave => exact .inl ⟨rfl, by omega⟩

/-- The request is published, withdrawn or left alone. -/
theorem Backend.Touches.pendingFile {k : Nat} (h : b.Touches fs fs' k) :
    fs'.pending = fs.pending ∧ (k = 3 → b.Asking) ∨
      (b.phase = 2 ∧ k = 3 ∧ fs'.pending = some b.pendingJson) ∨
      (b.phase = 3 ∧ k = 4 ∧ fs'.pending = none) := by
  unfold Asking
  cases h with
  | request h => exact .inr (.inl ⟨h, rfl, rfl⟩)
  | withdraw h => exact .inr (.inr ⟨h, rfl, rfl⟩)
  | start h | nonce h | wait h | take h | forget h => exact .inl ⟨rfl, by omega⟩
  | leave => exact .inl ⟨rfl, by omega⟩

/-- The answer is removed or left alone. -/
theorem Backend.Touches.answerFile {k : Nat} (h : b.Touches fs fs' k) :
    fs'.answer = fs.answer ∨ (b.phase = 0 ∨ b.phase = 3) ∧ fs'.answer = none := by
  cases h with
  | start h => exact .inr ⟨.inl h, rfl⟩
  | take h => exact .inr ⟨.inr h, rfl⟩
  | nonce h | request h | wait h | withdraw h | forget h => exact .inl rfl
  | leave => exact .inl rfl

/-! ## prompts one after the other -/

/-- What stands for a nonce in an answer: `none`, or a nonce that was published. -/
def Given (st : State) (n : Str) : Prop :=
  n = "none".toList ∨ ∃ b ∈ st.backends, 2 ≤ b.phase ∧ n = b.nonce.text

/-- At most one prompt is out, what it has published is there, and nothing is there
that no prompt has published. -/
structure Apart (st : State) : Prop where
  nonces : (st.backends.map (·.nonce)).Nodup
  sole : ∀ b ∈ st.backends, ∀ c ∈ st.backends, b.Out → c.Out → c.nonce = b.nonce
  nonceOut : ∀ b ∈ st.backends, b.Out → st.files.nonce = some b.nonce.text
  requestOut : ∀ b ∈ st.backends, b.Asking → st.files.pending = some b.pendingJson
  nonceFile : ∀ t ∈ st.files.nonce, ∃ b ∈ st.backends, 2 ≤ b.phase ∧ t = b.nonce.text
  pendingFile : ∀ t ∈ st.files.pending, ∃ b ∈ st.backends, 3 ≤ b.phase ∧ t = b.pendingJson
  answer : ∀ t ∈ st.files.answer, ∃ n v, t = answerLine n v ∧ v ∈ verdicts ∧ Given st n
  clicked : ∀ f ∈ st.frontends, ∀ v n, f.pc = .clicked v n → v ∈ verdicts ∧ Given st n

/-- Every backend is still there, no further back than it was. -/
def Advances (st st' : State) : Prop :=
  ∀ b ∈ st.backends, ∃ b' ∈ st'.backends, b'.nonce = b.nonce ∧ b'.pendingJson = b.pendingJson ∧
    b.phase ≤ b'.phase

theorem Given.mono (h : Advances st st') (hn : Given st n) : Given st' n := by
  cases hn with
  | inl hn => exact .inl hn
  | inr hn =>
      obtain ⟨b, hb, hphase, rfl⟩ := hn
      obtain ⟨b', hb', hnonce, -, hle⟩ := h b hb
      exact .inr ⟨b', hb', hphase.trans hle, by rw [hnonce]⟩

theorem Given.known (hn : Given st n) : Known st n :=
  hn.imp_right fun ⟨b, hb, _, heq⟩ => ⟨b.nonce, List.mem_map_of_mem hb, heq.symm⟩

/-- A nonce that stands in an answer was published by its backend. -/
theorem Given.phase (hnodup : (st.backends.map (·.nonce)).Nodup) (hc : c ∈ st.backends)
    (hn : Given st c.nonce.text) : 2 ≤ c.phase := by
  cases hn with
  | inl hn =>
      have hlen := c.nonce.length_text
      rw [hn] at hlen
      simp at hlen
  | inr hn =>
      obtain ⟨b, hb, hphase, heq⟩ := hn
      rwa [List.inj_on_of_nodup_map hnodup hc hb (Nonce.text_inj heq)]

/-- An answer for a backend carries a nonce that it has published. -/
theorem Apart.answered (h : Apart st) (hc : c ∈ st.backends)
    (hanswer : st.files.AnswerFor c.nonce) : 2 ≤ c.phase := by
  obtain ⟨t, ht, hread⟩ := hanswer
  obtain ⟨n, v, rfl, hv, hn⟩ := h.answer t ht
  rw [(read_answerLine hn.known.plain hv).1] at hread
  exact Given.phase h.nonces hc (hread ▸ hn)

/-- The backends after one of them has gone on. -/
theorem Apart.mem_set (h : Apart st) (hb : st.backends[i]? = some b)
    (hc : c ∈ st.backends.set i b') : c = b' ∨ c ∈ st.backends ∧ c.nonce ≠ b.nonce := by
  obtain ⟨k, hk⟩ := List.mem_iff_getElem?.mp hc
  by_cases hik : i = k
  · subst hik
    obtain ⟨hlt, -⟩ := List.getElem?_eq_some_iff.mp hb
    rw [List.getElem?_set_self hlt] at hk
    exact .inl (Option.some.inj hk).symm
  · rw [List.getElem?_set_ne hik] at hk
    refine .inr ⟨List.mem_of_getElem? hk, fun heq => hik ?_⟩
    obtain ⟨hlt, -⟩ := List.getElem?_eq_some_iff.mp hb
    refine (List.getElem?_inj (by simpa using hlt) h.nonces).mp ?_
    rw [List.getElem?_map, List.getElem?_map, hb, hk, Option.map_some, Option.map_some, heq]

/-- A backend that goes on is no further back. -/
theorem advances_set (hb : st.backends[i]? = some b) (hnonce : b'.nonce = b.nonce)
    (hpending : b'.pendingJson = b.pendingJson) (hle : b.phase ≤ b'.phase) (files : Files) :
    Advances st { st with files, backends := st.backends.set i b' } := by
  intro c hc
  obtain ⟨k, hk⟩ := List.mem_iff_getElem?.mp hc
  by_cases hik : i = k
  · subst hik
    obtain rfl := Option.some.inj (hb.symm.trans hk)
    obtain ⟨hlt, -⟩ := List.getElem?_eq_some_iff.mp hb
    exact ⟨b', List.mem_set hlt b', hnonce, hpending, hle⟩
  · have hmem : c ∈ st.backends.set i b' :=
      List.mem_of_getElem? ((List.getElem?_set_ne hik).trans hk)
    exact ⟨c, hmem, rfl, rfl, le_rfl⟩

/-- A prompt goes on, and publishes its nonce only if no other is out. -/
structure Goes (st : State) (i : Nat) (b b' : Backend) (fs' : Files) : Prop where
  here : st.backends[i]? = some b
  nonce : b'.nonce = b.nonce
  pending : b'.pendingJson = b.pendingJson
  touches : b.Touches st.files fs' b'.phase
  first : b.phase = 1 → b'.phase = 2 → ∀ c ∈ st.backends, c.nonce ≠ b.nonce → ¬ c.Out

namespace Goes

theorem mem (g : Goes st i b b' fs') : b ∈ st.backends := List.mem_of_getElem? g.here

theorem mem_set (g : Goes st i b b' fs') : b' ∈ st.backends.set i b' := by
  obtain ⟨hlt, -⟩ := List.getElem?_eq_some_iff.mp g.here
  exact List.mem_set hlt b'

theorem advances (g : Goes st i b b' fs') :
    Advances st { st with files := fs', backends := st.backends.set i b' } :=
  advances_set g.here g.nonce g.pending (g.touches.phase_le b.phase_le) fs'

/-- When it is out, no other is. -/
theorem alone (g : Goes st i b b' fs') (h : Apart st) (hc : c ∈ st.backends)
    (hne : c.nonce ≠ b.nonce) (hout : b.Out ∨ b'.Out) : ¬ c.Out := by
  intro hcout
  obtain hbout | ⟨hphase, hphase'⟩ : b.Out ∨ b.phase = 1 ∧ b'.phase = 2 := by
    obtain hbout | ⟨hlow, hhigh⟩ := hout
    · exact .inl hbout
    · obtain ⟨-, hold⟩ | ⟨hphase, hphase', -⟩ | ⟨-, hend, -⟩ := g.touches.nonceFile
      · exact .inl (hold (by omega))
      · exact .inr ⟨hphase, hphase'⟩
      · omega
  · exact hne (h.sole b g.mem c hc hbout hcout)
  · exact g.first hphase hphase' c hc hne hcout

theorem nonceOut (g : Goes st i b b' fs') (h : Apart st) (hc : c ∈ st.backends.set i b')
    (hout : c.Out) : fs'.nonce = some c.nonce.text := by
  obtain ⟨heq, hold⟩ | ⟨hphase, hphase', heq⟩ | ⟨hlast, hend, heq⟩ := g.touches.nonceFile
  · rw [heq]
    obtain rfl | ⟨hc, -⟩ := h.mem_set g.here hc
    · rw [h.nonceOut b g.mem (hold (by unfold Backend.Out at hout; omega)), g.nonce]
    · exact h.nonceOut c hc hout
  · rw [heq]
    obtain rfl | ⟨hc, hne⟩ := h.mem_set g.here hc
    · rw [g.nonce]
    · exact absurd hout (g.first hphase hphase' c hc hne)
  · obtain rfl | ⟨hc, hne⟩ := h.mem_set g.here hc
    · unfold Backend.Out at hout
      omega
    · exact absurd hout (g.alone h hc hne (.inl ⟨by omega, by omega⟩))

theorem requestOut (g : Goes st i b b' fs') (h : Apart st) (hc : c ∈ st.backends.set i b')
    (hasking : c.Asking) : fs'.pending = some c.pendingJson := by
  have hout : c.Out := by
    unfold Backend.Asking at hasking
    exact ⟨by omega, by omega⟩
  obtain ⟨heq, hold⟩ | ⟨hphase, hphase', heq⟩ | ⟨hphase, hphase', heq⟩ := g.touches.pendingFile
  · rw [heq]
    obtain rfl | ⟨hc, -⟩ := h.mem_set g.here hc
    · rw [h.requestOut b g.mem (hold hasking), g.pending]
    · exact h.requestOut c hc hasking
  · rw [heq]
    obtain rfl | ⟨hc, hne⟩ := h.mem_set g.here hc
    · rw [g.pending]
    · exact absurd hout (g.alone h hc hne (.inl ⟨by omega, by omega⟩))
  · obtain rfl | ⟨hc, hne⟩ := h.mem_set g.here hc
    · unfold Backend.Asking at hasking
      omega
    · exact absurd hout (g.alone h hc hne (.inl ⟨by omega, by omega⟩))

theorem nonceFile (g : Goes st i b b' fs') (h : Apart st) (hn : fs'.nonce = some n) :
    ∃ c ∈ st.backends.set i b', 2 ≤ c.phase ∧ n = c.nonce.text := by
  obtain ⟨heq, -⟩ | ⟨-, hphase', heq⟩ | ⟨-, -, heq⟩ := g.touches.nonceFile
  · obtain ⟨c, hc, hphase, rfl⟩ := h.nonceFile n (heq ▸ hn)
    obtain ⟨c', hc', hnonce', -, hle⟩ := g.advances c hc
    exact ⟨c', hc', hphase.trans hle, by rw [hnonce']⟩
  · obtain rfl := Option.some.inj (heq.symm.trans hn)
    exact ⟨b', g.mem_set, by omega, by rw [g.nonce]⟩
  · cases heq.symm.trans hn

theorem pendingFile (g : Goes st i b b' fs') (h : Apart st) (hn : fs'.pending = some n) :
    ∃ c ∈ st.backends.set i b', 3 ≤ c.phase ∧ n = c.pendingJson := by
  obtain ⟨heq, -⟩ | ⟨-, hphase', heq⟩ | ⟨-, -, heq⟩ := g.touches.pendingFile
  · obtain ⟨c, hc, hphase, rfl⟩ := h.pendingFile n (heq ▸ hn)
    obtain ⟨c', hc', -, hpending', hle⟩ := g.advances c hc
    exact ⟨c', hc', hphase.trans hle, by rw [hpending']⟩
  · obtain rfl := Option.some.inj (heq.symm.trans hn)
    exact ⟨b', g.mem_set, by omega, by rw [g.pending]⟩
  · cases heq.symm.trans hn

end Goes

theorem Apart.backend (h : Apart st) (g : Goes st i b b' fs') :
    Apart { st with files := fs', backends := st.backends.set i b' } where
  nonces := by
    rw [map_nonce_set g.here g.nonce]
    exact h.nonces
  sole := by
    intro c₁ hc₁ c₂ hc₂ hout₁ hout₂
    obtain rfl | ⟨hold₁, hne₁⟩ := h.mem_set g.here hc₁
    · obtain rfl | ⟨hold₂, hne₂⟩ := h.mem_set g.here hc₂
      · rfl
      · exact absurd hout₂ (g.alone h hold₂ hne₂ (.inr hout₁))
    · obtain rfl | ⟨hold₂, -⟩ := h.mem_set g.here hc₂
      · exact absurd hout₁ (g.alone h hold₁ hne₁ (.inr hout₂))
      · exact h.sole c₁ hold₁ c₂ hold₂ hout₁ hout₂
  nonceOut _ hc hout := g.nonceOut h hc hout
  requestOut _ hc hasking := g.requestOut h hc hasking
  nonceFile _ ht := g.nonceFile h ht
  pendingFile _ ht := g.pendingFile h ht
  answer t ht := by
    obtain heq | ⟨-, heq⟩ := g.touches.answerFile
    · obtain ⟨n, v, rfl, hv, hn⟩ := h.answer t (heq ▸ ht)
      exact ⟨n, v, rfl, hv, hn.mono g.advances⟩
    · cases heq.symm.trans ht
  clicked f hf v n hpc := (h.clicked f hf v n hpc).imp_right fun hn => hn.mono g.advances

/-- A prompt is raised under a nonce of its own. -/
theorem Apart.raise (h : Apart st) (kind : Kind) (request : Request) {nonce : Nonce}
    (hfresh : nonce ∉ st.backends.map (·.nonce)) :
    Apart { st with backends := st.backends ++ [⟨kind, nonce, request, .rmAnswer⟩] } := by
  have hold {c : Backend} (hc : c ∈ st.backends ++ [⟨kind, nonce, request, .rmAnswer⟩])
      (hphase : c.phase ≠ 0) : c ∈ st.backends := by
    cases List.mem_append.mp hc with
    | inl hc => exact hc
    | inr hc =>
        rw [List.mem_singleton] at hc
        exact absurd (by rw [hc]; rfl) hphase
  have hout {c : Backend} (hout : c.Out) : c.phase ≠ 0 := by
    obtain ⟨hlow, -⟩ := hout
    omega
  have hadv : Advances st
      { st with backends := st.backends ++ [⟨kind, nonce, request, .rmAnswer⟩] } :=
    fun c hc => ⟨c, List.mem_append_left _ hc, rfl, rfl, le_rfl⟩
  exact {
    nonces := by
      rw [List.map_append, List.nodup_append]
      refine ⟨h.nonces, by simp, fun k hk k' hk' => ?_⟩
      rw [List.map_singleton, List.mem_singleton] at hk'
      rintro rfl
      rw [hk'] at hk
      exact hfresh hk
    sole := fun b hb c hc hbout hcout =>
      h.sole b (hold hb (hout hbout)) c (hold hc (hout hcout)) hbout hcout
    nonceOut := fun b hb hbout => h.nonceOut b (hold hb (hout hbout)) hbout
    requestOut := fun b hb hasking =>
      h.requestOut b (hold hb (by unfold Backend.Asking at hasking; omega)) hasking
    nonceFile := fun t ht => by
      obtain ⟨c, hc, hphase, rfl⟩ := h.nonceFile t ht
      exact ⟨c, List.mem_append_left _ hc, hphase, rfl⟩
    pendingFile := fun t ht => by
      obtain ⟨c, hc, hphase, rfl⟩ := h.pendingFile t ht
      exact ⟨c, List.mem_append_left _ hc, hphase, rfl⟩
    answer := fun t ht => by
      obtain ⟨n, v, rfl, hv, hn⟩ := h.answer t ht
      exact ⟨n, v, rfl, hv, hn.mono hadv⟩
    clicked := fun f hf v n hpc => (h.clicked f hf v n hpc).imp_right fun hn => hn.mono hadv }

/-- The frontends go on, and an answer may be written. -/
theorem Apart.frontends (h : Apart st) {answer : Option Str} {frontends : List Frontend}
    (hanswer : ∀ t ∈ answer, t ∈ st.files.answer ∨
      ∃ n v, t = answerLine n v ∧ v ∈ verdicts ∧ Given st n)
    (hclicked : ∀ f ∈ frontends, ∀ v n, f.pc = .clicked v n →
      f ∈ st.frontends ∨ v ∈ verdicts ∧ Given st n) :
    Apart { st with files := { st.files with answer }, frontends } where
  nonces := h.nonces
  sole := h.sole
  nonceOut := h.nonceOut
  requestOut := h.requestOut
  nonceFile := h.nonceFile
  pendingFile := h.pendingFile
  answer t ht := by
    cases hanswer t ht with
    | inl ht => exact h.answer t ht
    | inr hline => exact hline
  clicked f hf v n hpc := by
    cases hclicked f hf v n hpc with
    | inl hf => exact h.clicked f hf v n hpc
    | inr hgiven => exact hgiven

/-- The nonce that `pfsnitch-answer` reads was published by a prompt, or it is `none`. -/
theorem Apart.nonceOr_given (h : Apart st) : Given st st.files.nonceOr := by
  unfold Files.nonceOr
  split
  · exact .inl rfl
  · rename_i hcap
    cases hfile : st.files.nonce with
    | none => simp [hfile, capture] at hcap
    | some t =>
        obtain ⟨b, hb, hphase, rfl⟩ := h.nonceFile t hfile
        rw [hfile, Option.getD_some, b.nonce.capture_text] at hcap
        exact .inr ⟨b, hb, hphase, hcap.symm⟩

theorem phase_eq_zero (h : b.phase = 0) : b.pc = .rmAnswer := by
  unfold Backend.phase at h
  split at h <;> simp_all

theorem phase_eq_one (h : b.phase = 1) : b.pc = .putNonce := by
  unfold Backend.phase at h
  split at h <;> simp_all

/-- An undisturbed event leaves at most one prompt out. -/
theorem Apart.step (h : Apart st) (hok : Undisturbed st e) (hstep : st.step e = some (st', out)) :
    Apart st' := by
  cases State.steps hstep with
  | raise hfresh => exact h.raise _ _ hfresh
  | @backend i reply printed b b' fs' hb hs =>
      have hsteps := Backend.steps hs
      have hpending : b'.pendingJson = b.pendingJson := by
        rw [Backend.pendingJson, Backend.pendingJson, hsteps.nonce, hsteps.request]
      exact h.backend ⟨hb, hsteps.nonce, hpending, Backend.touches hs, fun hphase _ c hc hne =>
        (hok b hb c hc hne).2 (phase_eq_one hphase)⟩
  | kill hb => exact h.backend ⟨hb, rfl, rfl, .leave, fun _ hphase => by cases hphase⟩
  | look =>
      refine h.frontends (fun t ht => .inl ht) fun f hmem v n hpc => ?_
      cases List.mem_append.mp hmem with
      | inl hmem => exact .inl hmem
      | inr hmem =>
          rw [List.mem_singleton] at hmem
          simp [hmem] at hpc
  | @click j verdict seen =>
      refine h.frontends (fun t ht => .inl ht) fun f hmem v n hpc => ?_
      cases List.mem_or_eq_of_mem_set hmem with
      | inl hmem => exact .inl hmem
      | inr hmem =>
          subst hmem
          by_cases hverdict : verdict ∈ verdicts
          · rw [if_pos hverdict] at hpc
            obtain ⟨rfl, rfl⟩ := FrontendPc.clicked.inj hpc
            exact .inr ⟨hverdict, h.nonceOr_given⟩
          · rw [if_neg hverdict] at hpc
            cases hpc
  | @put j verdict seen nonce hj =>
      obtain ⟨hverdict, hgiven⟩ := h.clicked _ (List.mem_of_getElem? hj) verdict nonce rfl
      refine h.frontends (fun t ht => ?_) fun f hmem v n hpc => ?_
      · obtain rfl : answerLine nonce verdict = t := by simpa using ht
        exact .inr ⟨nonce, verdict, rfl, hverdict, hgiven⟩
      · cases List.mem_or_eq_of_mem_set hmem with
        | inl hmem => exact .inl hmem
        | inr hmem => simp [hmem] at hpc

theorem Apart.initial : Apart State.initial := by
  constructor <;> simp [State.initial]

/-- A prompt that begins removes the answer for another. -/
theorem not_spares_start (hpc : b.pc = .rmAnswer) (hs : b.step fs reply = some (fs', b', printed))
    (hanswer : fs.AnswerFor c.nonce) : ¬ fs.Spares fs' c := by
  intro hspares
  have hsame := hspares.answer hanswer
  simp only [Backend.step, hpc, Option.some.injEq, Prod.mk.injEq] at hs
  obtain ⟨t, ht, -⟩ := hanswer
  rw [← hs.1] at hsame
  rw [← hsame] at ht
  cases ht

/-- A prompt that publishes its nonce replaces that of another. -/
theorem Apart.not_spares_nonce (h : Apart st) (hpc : b.pc = .putNonce)
    (hs : b.step st.files reply = some (fs', b', printed)) (hc : c ∈ st.backends)
    (hne : c.nonce ≠ b.nonce) (hout : c.Out) : ¬ st.files.Spares fs' c := by
  intro hspares
  have hnonce := h.nonceOut c hc hout
  have hsame := hspares.nonce hnonce
  simp only [Backend.step, hpc, Option.some.injEq, Prod.mk.injEq] at hs
  rw [← hs.1, hnonce, Option.some.injEq] at hsame
  exact hne (Nonce.text_inj hsame).symm

/-- A prompt harms no other, unless it begins on an answer for the other or publishes
its nonce when that of the other is out. -/
theorem Apart.spares (h : Apart st) (hb : b ∈ st.backends) (hc : c ∈ st.backends)
    (hne : c.nonce ≠ b.nonce) (hlive : c.Live) {k : Nat} (htouches : b.Touches st.files fs' k)
    (hstart : b.phase = 0 → ¬ st.files.AnswerFor c.nonce) (hfirst : b.phase = 1 → ¬ c.Out) :
    st.files.Spares fs' c where
  request hpending := by
    obtain ⟨c', hc', hphase, heq⟩ := h.pendingFile _ hpending
    have hsame : c = c' := List.inj_on_of_nodup_map h.nonces hc hc' (pendingJson_inj heq)
    subst hsame
    have hbout : ¬ b.Out := fun hbout =>
      hne (h.sole b hb c hc hbout ⟨by omega, hlive⟩)
    obtain ⟨hsame, -⟩ | ⟨hphase, -, -⟩ | ⟨hphase, -, -⟩ := htouches.pendingFile
    · exact hsame
    · exact absurd ⟨by omega, by omega⟩ hbout
    · exact absurd ⟨by omega, by omega⟩ hbout
  nonce hnonce := by
    obtain ⟨c', hc', hphase, heq⟩ := h.nonceFile _ hnonce
    have hsame : c = c' := List.inj_on_of_nodup_map h.nonces hc hc' (Nonce.text_inj heq)
    subst hsame
    obtain ⟨hsame, -⟩ | ⟨hone, -, -⟩ | ⟨hfour, -, -⟩ := htouches.nonceFile
    · exact hsame
    · exact absurd ⟨hphase, hlive⟩ (hfirst hone)
    · exact absurd (h.sole b hb c hc ⟨by omega, by omega⟩ ⟨hphase, hlive⟩) hne
  answer hanswer := by
    have hphase := h.answered hc hanswer
    obtain hsame | ⟨hzero | hthree, -⟩ := htouches.answerFile
    · exact hsame
    · exact absurd hanswer (hstart hzero)
    · exact absurd (h.sole b hb c hc ⟨by omega, by omega⟩ ⟨hphase, hlive⟩) hne

/-- What an event does to the prompts is no harm just if it is undisturbed. -/
theorem Apart.harmless_iff (h : Apart st) (hstep : st.step e = some (st', out)) :
    Harmless st e st' ↔ Undisturbed st e := by
  cases State.steps hstep with
  | raise | kill | look | click | put => exact ⟨fun _ => trivial, fun _ _ _ heq => by cases heq⟩
  | @backend i reply printed b b' fs' hb hs =>
      constructor
      · intro hharm b₁ hb₁ c hc hne
        obtain rfl := Option.some.inj (hb.symm.trans hb₁)
        have hspares := hharm i reply rfl b hb c hc hne
        refine ⟨fun hpc hlive hanswer => ?_, fun hpc hout => ?_⟩
        · exact not_spares_start hpc hs hanswer (hspares hlive)
        · exact h.not_spares_nonce hpc hs hc hne hout (hspares hout.2)
      · intro hok i₁ reply₁ heq b₁ hb₁ c hc hne hlive
        cases heq
        obtain rfl := Option.some.inj (hb.symm.trans hb₁)
        obtain ⟨hstart, hfirst⟩ := hok b hb c hc hne
        exact h.spares (List.mem_of_getElem? hb) hc hne hlive (Backend.touches hs)
          (fun hphase => hstart (phase_eq_zero hphase) hlive)
          (fun hphase => hfirst (phase_eq_one hphase))

/-- **Prompts do not destroy each other** as long as each publishes its nonce when no
other is out, and begins when no answer for another lies there.  After such a run every
prompt that asks can be read and answered, and the next step harms another prompt
just if it breaks the rule. -/
theorem prompts_undisturbed (hrun : Run State.step Undisturbed State.initial st) :
    Answerable st ∧ ∀ e st' out, st.step e = some (st', out) →
      (Harmless st e st' ↔ Undisturbed st e) := by
  have h : Apart st := hrun.invariant Apart.initial fun _ _ _ _ h hok hstep => h.step hok hstep
  refine ⟨fun b hb hasking => ?_, fun e st' out hstep => h.harmless_iff hstep⟩
  have hphase : b.phase = 3 := hasking
  exact ⟨h.requestOut b hb hasking, h.nonceOut b hb ⟨by omega, by omega⟩⟩

/-- A prompt is answered and ends, and the next one asks. -/
theorem prompts_undisturbed_turns :
    ∃ st, Run State.step Undisturbed State.initial st ∧ ∃ b ∈ st.backends, b.Asking ∧
      b.request.dst = "192.0.2.1".toList ∧
      st.files.pending = some b.pendingJson ∧ st.files.nonce = some b.nonce.text := by
  have hexec : (exec State.step Undisturbed State.initial (published 0 0xa5 "93.184.216.34" ++
      [.look, .click 0 "allow-app".toList, .put 0] ++ takes 0 ++
      published 1 0xb6 "192.0.2.1")).any (fun st => decide (∃ b ∈ st.backends, b.Asking ∧
        b.request.dst = "192.0.2.1".toList)) = true := by
    decide +kernel
  obtain ⟨st, hrun, hp⟩ := exists_run_of_exec hexec
  obtain ⟨b, hb, hasking, hdst⟩ := of_decide_eq_true hp
  have hrun := hrun.mono fun _ _ h => h.1
  exact ⟨st, hrun, b, hb, hasking, hdst, (prompts_undisturbed hrun).1 b hb hasking⟩

/-- A second prompt is raised while the first one waits: the request of the first can no
longer be read, and its answer will carry the nonce of the second. -/
theorem prompts_destroyed : ¬ ∀ st, Run State.step (fun _ _ => True) State.initial st →
    Answerable st ∧ ∀ e st' out, st.step e = some (st', out) → Harmless st e st' := by
  intro h
  have hexec : (exec State.step (fun _ _ => True) State.initial
      (published 0 0xa5 "93.184.216.34" ++ published 1 0xb6 "192.0.2.1")).any
        (fun st => decide (¬ Answerable st)) = true := by
    decide +kernel
  obtain ⟨st, hrun, hp⟩ := exists_run_of_exec hexec
  exact of_decide_eq_true hp (h st (hrun.mono fun _ _ _ => trivial)).1

end Pfsnitch.Prompt
