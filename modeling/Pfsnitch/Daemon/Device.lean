import Pfsnitch.Daemon.Drain

/-!
# Pfsnitch.Daemon.Device

The module behind the daemon's handle.  An ioctl reaches the module when the
handle is live, and nothing otherwise; what the module's operations preserve,
a sequence of ioctls preserves (`Os.Module`).
-/

namespace Pfsnitch

open Lib

namespace Os

variable {os : Os} {kern : Option Handle} {P : KMod → Prop}

/-- The handle works, and `k` is the module it reaches. -/
def Device (os : Os) (kern : Option Handle) (k : KMod) : Prop :=
  ∃ h, kern = some h ∧ h.dead = false ∧ os.reach h.gen = some k

/-- The handle works. -/
def Live (os : Os) (kern : Option Handle) : Prop := ∃ k, os.Device kern k

/-- The loaded module, if there is one, has a property. -/
def Module (os : Os) (P : KMod → Prop) : Prop := ∀ k, os.kmod = some k → P k

theorem reach_eq_some {gen : Nat} {k : KMod} :
    os.reach gen = some k ↔ gen = os.gen ∧ os.kmod = some k := by
  simp [reach]

theorem Device.kmod {k : KMod} (h : os.Device kern k) : os.kmod = some k := by
  obtain ⟨_, _, _, hreach⟩ := h
  exact (reach_eq_some.mp hreach).2

/-- Operating systems that differ at most in the state of the module. -/
def SameRest (os os' : Os) : Prop := ∃ kmod, os' = { os with kmod }

theorem SameRest.refl (os : Os) : SameRest os os := ⟨_, rfl⟩

theorem SameRest.trans {os₁ os₂ os₃ : Os} : SameRest os₁ os₂ → SameRest os₂ os₃ → SameRest os₁ os₃
  | ⟨_, h₁⟩, ⟨_, h₂⟩ => ⟨_, by rw [h₂, h₁]⟩

theorem SameRest.env {os' : Os} : SameRest os os' → os'.env = os.env
  | ⟨_, h⟩ => h ▸ rfl

theorem SameRest.gen {os' : Os} : SameRest os os' → os'.gen = os.gen
  | ⟨_, h⟩ => h ▸ rfl

theorem SameRest.policy {os' : Os} : SameRest os os' → os'.policy = os.policy
  | ⟨_, h⟩ => h ▸ rfl

theorem SameRest.udpdivert {os' : Os} : SameRest os os' → os'.udpdivert = os.udpdivert
  | ⟨_, h⟩ => h ▸ rfl

/-- A working handle carries out the ioctl; one that does not changes nothing. -/
theorem kernIoctl_cases (os : Os) (kern : Option Handle) (out : IoctlOutcome) (f : KMod → KMod) :
    (∃ k, os.Device kern k ∧ out = .ok ∧
        kernIoctl os kern out f = ({ os with kmod := some (f k) }, kern)) ∨
      (kernIoctl os kern out f).1 = os ∧ (out = .ok → ¬ os.Live kern) := by
  cases kern with
  | none => exact .inr ⟨rfl, fun _ ⟨_, _, h, _⟩ => nomatch h⟩
  | some h =>
      obtain ⟨gen, dead⟩ := h
      cases dead with
      | true =>
          refine .inr ⟨rfl, ?_⟩
          rintro - ⟨_, _, ⟨⟩, hdead, _⟩
          cases hdead
      | false =>
          cases hreach : os.reach gen with
          | none =>
              refine .inr ⟨by simp [kernIoctl, ioctl, hreach], ?_⟩
              rintro - ⟨_, _, ⟨⟩, _, hk⟩
              simp [hreach] at hk
          | some k =>
              cases out with
              | ok => exact .inl ⟨k, ⟨_, rfl, rfl, hreach⟩, rfl, by simp [kernIoctl, ioctl, hreach]⟩
              | fail fatal => exact .inr ⟨by simp [kernIoctl, ioctl, hreach], nofun⟩

theorem sameRest_kernIoctl (os : Os) (kern : Option Handle) (out : IoctlOutcome) (f : KMod → KMod) :
    SameRest os (kernIoctl os kern out f).1 := by
  rcases kernIoctl_cases os kern out f with ⟨k, -, -, h⟩ | ⟨h, -⟩
  · exact ⟨some (f k), by rw [h]⟩
  · rw [h]
    exact .refl os

theorem Module.kernIoctl (h : os.Module P) {out : IoctlOutcome} {f : KMod → KMod}
    (hf : ∀ k, P k → P (f k)) : (kernIoctl os kern out f).1.Module P := by
  rcases kernIoctl_cases os kern out f with ⟨k, hk, -, heq⟩ | ⟨heq, -⟩
  · rw [heq]
    rintro _ ⟨⟩
    exact hf k (h k hk.kmod)
  · exact heq.symm ▸ h

/-- Unless an ioctl reports a loaded device gone, a handle works after it
exactly when it worked before. -/
theorem live_kernIoctl {out : IoctlOutcome} {f : KMod → KMod} (hout : out ≠ .fail true) :
    (kernIoctl os kern out f).1.Live (kernIoctl os kern out f).2 ↔ os.Live kern := by
  cases kern with
  | none => exact Iff.rfl
  | some h =>
      obtain ⟨gen, dead⟩ := h
      cases dead with
      | true => exact Iff.rfl
      | false =>
          cases hreach : os.reach gen with
          | none =>
              simp only [Pfsnitch.kernIoctl, ioctl, hreach, Bool.false_eq_true, if_false]
              constructor
              · rintro ⟨_, _, ⟨⟩, hdead, _⟩
                cases hdead
              · rintro ⟨_, _, ⟨⟩, _, hk⟩
                simp [hreach] at hk
          | some k =>
              obtain ⟨hgen, hk⟩ := reach_eq_some.mp hreach
              cases out with
              | ok =>
                  simp only [Pfsnitch.kernIoctl, ioctl, hreach, Bool.false_eq_true, if_false]
                  exact ⟨fun _ => ⟨k, _, rfl, rfl, hreach⟩,
                    fun _ => ⟨f k, _, rfl, rfl, reach_eq_some.mpr ⟨hgen, rfl⟩⟩⟩
              | fail fatal =>
                  cases fatal with
                  | true => exact absurd rfl hout
                  | false =>
                      simp only [Pfsnitch.kernIoctl, ioctl, hreach, Bool.false_eq_true, if_false]

/-- A handle that works after an ioctl worked before it. -/
theorem Live.of_kernIoctl {out : IoctlOutcome} {f : KMod → KMod}
    (h : os.Live (Pfsnitch.kernIoctl os kern out f).2) : os.Live kern := by
  obtain ⟨k, h', hk', hdead, hreach⟩ := h
  cases kern with
  | none => cases hk'
  | some h₀ =>
      simp only [Pfsnitch.kernIoctl, ioctl] at hk'
      split at hk'
      · obtain rfl := Option.some.inj hk'
        exact ⟨k, _, rfl, hdead, hreach⟩
      · rename_i hdead₀
        split at hk' <;> obtain rfl := Option.some.inj hk' <;>
          exact ⟨k, _, rfl, Bool.not_eq_true _ ▸ hdead₀, hreach⟩

/-- Nothing is resolved through a handle that does not work. -/
theorem resolveAll_of_not_live {inp : Input} {v : KVerdict} {n : Nat} {ids : List Nat}
    (h : ¬ os.Live kern) : (resolveAll inp v n ids os kern).1 = os := by
  induction ids generalizing n kern with
  | nil => rfl
  | cons id ids ih =>
      rw [resolveAll_cons]
      rcases kernIoctl_cases os kern (inp.ioctl n) fun k => k.resolve id v (inp.memory n) with
        ⟨k, hk, -, -⟩ | ⟨heq, -⟩
      · exact absurd ⟨k, hk⟩ h
      · rw [heq]
        exact ih fun hlive => h hlive.of_kernIoctl

theorem Module.resolveAll (h : os.Module P) {inp : Input} {v : KVerdict} {n : Nat} {ids : List Nat}
    (hf : ∀ k, P k → ∀ id ∈ ids, ∀ memory, P (k.resolve id v memory)) :
    (resolveAll inp v n ids os kern).1.Module P := by
  induction ids generalizing n os kern with
  | nil => exact h
  | cons id ids ih =>
      rw [resolveAll_cons]
      exact ih (h.kernIoctl fun k hk => hf k hk id List.mem_cons_self _)
        fun k hk i hi => hf k hk i (List.mem_cons_of_mem _ hi)

theorem sameRest_resolveAll (os : Os) (kern : Option Handle) (inp : Input) (v : KVerdict) (n : Nat) (ids : List Nat) :
    SameRest os (resolveAll inp v n ids os kern).1 := by
  induction ids generalizing n os kern with
  | nil => exact .refl os
  | cons id ids ih =>
      rw [resolveAll_cons]
      exact (sameRest_kernIoctl _ _ _ _).trans (ih _ _ _)

theorem sameRest_of_resolveAll {inp : Input} {v : KVerdict} {n : Nat} {ids : List Nat} {os' : Os}
    {kern' : Option Handle} (h : resolveAll inp v n ids os kern = (os', kern')) :
    SameRest os os' := by
  have hsame := sameRest_resolveAll os kern inp v n ids
  rwa [h] at hsame

theorem live_resolveAll {inp : Input} (hout : ∀ n, inp.ioctl n ≠ .fail true) (v : KVerdict) (n : Nat)
    (ids : List Nat) :
    (resolveAll inp v n ids os kern).1.Live (resolveAll inp v n ids os kern).2 ↔ os.Live kern := by
  induction ids generalizing n os kern with
  | nil => exact Iff.rfl
  | cons id ids ih =>
      rw [resolveAll_cons]
      exact (ih _).trans (live_kernIoctl (hout n))

theorem sameRest_closed (gen : Nat) (stillOpen : Bool) : SameRest os (os.closed gen stillOpen) := by
  unfold closed
  split
  · exact ⟨_, rfl⟩
  · exact .refl os

theorem Module.closed (h : os.Module P) (hf : ∀ k, P k → P k.devClose) {gen : Nat}
    {stillOpen : Bool} : (os.closed gen stillOpen).Module P := by
  unfold Os.closed
  split
  · intro k' hk'
    obtain ⟨k, hk, rfl⟩ := Option.map_eq_some_iff.mp hk'
    exact hf k (h k hk)
  · exact h

end Os

end Pfsnitch
