import Mathlib.Algebra.GroupWithZero.Nat
import Pfsnitch.Lib.Run

/-!
# Pfsnitch.Lib.Monitor

Threads that wait for something under a lock.

A thread that has entered takes the lock and tests whether it must wait.  If so it sleeps,
and the lock is free; if not it takes what it came for, goes on without the lock, and may take
the lock once more before it is out.  Whatever else happens under the lock may wake those
who sleep.  A `Monitor` says what happens, and `Lawful` that whoever makes waiting needless
wakes, and that the lock goes away when nobody can come for it any more.

* `Sound.run` — nobody sleeps who need not wait, and nobody is inside once the lock is gone;
* `Sound.steps_left` — once the door is shut, what threads still do is bounded;
* `Sound.moves` — and as long as one is inside, one can do something.
-/

namespace Pfsnitch.Lib

universe u v w

/-- What happens under the lock. -/
structure Monitor (σ : Type u) (α : Type v) (ρ : Type w) where
  /-- Must a thread wait? -/
  waits : σ → Bool
  /-- What a thread does that need not wait, and what it goes on with. -/
  take : σ → σ × ρ
  /-- What a thread may do before it is out, and whether it wakes the sleepers. -/
  finish : ρ → σ → σ × Bool
  /-- What else can happen, and whether it wakes the sleepers. -/
  act : α → σ → Option (σ × Bool)
  /-- Does it happen only when no thread is inside? -/
  alone : α → Bool
  /-- May threads enter? -/
  door : σ → Bool
  /-- Is the lock gone? -/
  gone : σ → Bool

/-- Where a thread is. -/
inductive Thread (ρ : Type w) where
  | testing
  | asleep
  | past (r : ρ)
  | out
deriving DecidableEq, Repr

namespace Thread

variable {ρ : Type w}

def isOut : Thread ρ → Bool
  | .out => true
  | _ => false

def woken : Thread ρ → Thread ρ
  | .asleep => .testing
  | t => t

/-- How often a thread can still do something, unless it waits. -/
def steps : Thread ρ → Nat
  | .testing => 2
  | .asleep => 3
  | .past _ => 1
  | .out => 0

end Thread

/-- Wake the sleepers, or do not. -/
def wake {ρ : Type w} (woken : Bool) (ts : List (Thread ρ)) : List (Thread ρ) :=
  if woken then ts.map Thread.woken else ts

/-- How often threads can still do something. -/
def stepsLeft {ρ : Type w} (ts : List (Thread ρ)) : Nat := (ts.map Thread.steps).sum

namespace Monitor

variable {σ : Type u} {α : Type v} {ρ : Type w}

/-- What the lock protects, and the threads. -/
structure State (_M : Monitor σ α ρ) where
  shared : σ
  threads : List (Thread ρ)

inductive Event (α : Type v) where
  | enter
  | act (a : α)
  /-- A thread tests: it goes to sleep, or takes what it came for. -/
  | test (j : Nat)
  /-- A sleeper is interrupted, and out. -/
  | interrupt (j : Nat)
  /-- A thread is out, without the lock or with it. -/
  | leave (j : Nat)
  | finish (j : Nat)
deriving DecidableEq, Repr

/-- Does a thread do it that is inside? -/
def Event.byThread : Event α → Bool
  | .enter | .act _ => false
  | .test _ | .interrupt _ | .leave _ | .finish _ => true

variable (M : Monitor σ α ρ)

/-- One event, and what a thread has taken. -/
def step (st : M.State) : Event α → Option (M.State × List ρ)
  | .enter =>
    if M.door st.shared then some ({ st with threads := st.threads ++ [.testing] }, []) else none
  | .act a =>
    if M.alone a && !st.threads.all Thread.isOut then none
    else (M.act a st.shared).map fun r => (⟨r.1, wake r.2 st.threads⟩, [])
  | .test j =>
    match st.threads[j]? with
    | some .testing =>
      if M.waits st.shared then some ({ st with threads := st.threads.set j .asleep }, [])
      else
        let (shared, r) := M.take st.shared
        some (⟨shared, st.threads.set j (.past r)⟩, [r])
    | _ => none
  | .interrupt j =>
    match st.threads[j]? with
    | some .asleep => some ({ st with threads := st.threads.set j .out }, [])
    | _ => none
  | .leave j =>
    match st.threads[j]? with
    | some (.past _) => some ({ st with threads := st.threads.set j .out }, [])
    | _ => none
  | .finish j =>
    match st.threads[j]? with
    | some (.past r) =>
      let (shared, woken) := M.finish r st.shared
      some (⟨shared, wake woken (st.threads.set j .out)⟩, [])
    | _ => none

/-- What happens under the lock, whether it wakes, and whether it happens alone. -/
inductive Section (s : σ) : σ → Bool → Bool → Prop
  | take (h : M.waits s = false) : Section s (M.take s).1 false false
  | finish (r : ρ) : Section s (M.finish r s).1 (M.finish r s).2 false
  | act {a : α} {s' : σ} {woken : Bool} (h : M.act a s = some (s', woken)) :
      Section s s' woken (M.alone a)

/-- The rules of a monitor whose state has the property `Inv` whenever the lock is free. -/
structure Lawful (Inv : σ → Prop) : Prop where
  inv {s s' : σ} {woken alone : Bool} : Inv s → M.gone s = false → M.Section s s' woken alone → Inv s'
  heeds {s s' : σ} {alone : Bool} : Inv s → M.gone s = false → M.waits s = true →
    M.Section s s' false alone → M.waits s' = true
  door {s s' : σ} {woken alone : Bool} : M.Section s s' woken alone → M.door s = false →
    M.door s' = false
  shut {s : σ} : Inv s → M.door s = false → M.waits s = false
  gone {s s' : σ} {woken : Bool} : M.Section s s' woken false → M.gone s = false → M.gone s' = false
  closed {s : σ} : M.gone s = true → M.door s = false
  inert {s : σ} {a : α} : M.gone s = true → M.act a s = none

/-- What holds in every run. -/
structure Sound (Inv : σ → Prop) (st : M.State) : Prop where
  inv : Inv st.shared
  sleepers : .asleep ∈ st.threads → M.waits st.shared = true
  gone : M.gone st.shared = true → ∀ t ∈ st.threads, t = .out

variable {M} {Inv : σ → Prop} {st st' : M.State}

theorem asleep_not_mem_wake (ts : List (Thread ρ)) : .asleep ∉ wake true ts := by
  intro h
  obtain ⟨t, -, ht⟩ := List.mem_map.mp h
  cases t <;> cases ht

theorem mem_wake {woken : Bool} {ts : List (Thread ρ)} (h : .asleep ∈ wake woken ts) :
    woken = false ∧ .asleep ∈ ts := by
  cases woken with
  | true => exact absurd h (asleep_not_mem_wake ts)
  | false => exact ⟨rfl, h⟩

theorem asleep_mem_of_set {ts : List (Thread ρ)} {j : Nat} {t : Thread ρ} (ht : t ≠ .asleep)
    (h : .asleep ∈ ts.set j t) : .asleep ∈ ts := by
  obtain h | h := List.mem_or_eq_of_mem_set h
  · exact h
  · exact absurd h.symm ht

theorem stepsLeft_wake (woken : Bool) (ts : List (Thread ρ)) :
    stepsLeft (wake woken ts) ≤ stepsLeft ts := by
  cases woken with
  | false => exact Nat.le_refl _
  | true =>
      induction ts with
      | nil => exact Nat.le_refl _
      | cons t ts ih =>
          have ht : t.woken.steps ≤ t.steps := by cases t <;> simp [Thread.woken, Thread.steps]
          exact Nat.add_le_add ht ih

/-- Those who are awake are out after two steps at most. -/
theorem stepsLeft_le {ts : List (Thread ρ)} (h : .asleep ∉ ts) : stepsLeft ts ≤ 2 * ts.length := by
  induction ts with
  | nil => exact Nat.le_refl _
  | cons t ts ih =>
      have ht : t.steps ≤ 2 := by
        cases t with
        | asleep => exact absurd List.mem_cons_self h
        | testing | past r | out => simp [Thread.steps]
      have hrest := ih fun hmem => h (List.mem_cons_of_mem t hmem)
      simp only [stepsLeft, List.map_cons, List.sum_cons, List.length_cons] at hrest ⊢
      omega

theorem stepsLeft_set {ts : List (Thread ρ)} {j : Nat} {t : Thread ρ} (hj : ts[j]? = some t)
    (t' : Thread ρ) : stepsLeft (ts.set j t') + t.steps = stepsLeft ts + t'.steps := by
  induction ts generalizing j with
  | nil => cases hj
  | cons u ts ih =>
      cases j with
      | zero =>
          obtain rfl := Option.some.inj hj
          simp only [stepsLeft, List.set_cons_zero, List.map_cons, List.sum_cons]
          omega
      | succ j =>
          have hrest := ih (List.getElem?_cons_succ ▸ hj)
          simp only [stepsLeft, List.set_cons_succ, List.map_cons, List.sum_cons] at hrest ⊢
          omega

namespace Sound

/-- A thread that is inside: the lock is there. -/
theorem present (h : Sound M Inv st) {j : Nat} {t : Thread ρ} (ht : st.threads[j]? = some t)
    (hin : t ≠ .out) : M.gone st.shared = false := by
  rw [Bool.eq_false_iff]
  exact fun hgone => hin (h.gone hgone t (List.mem_of_getElem? ht))

variable (hM : M.Lawful Inv)

include hM

/-- What happens under the lock, while threads change as they may. -/
theorem under_lock (h : Sound M Inv st) {s' : σ} {woken alone : Bool}
    (hsection : M.Section st.shared s' woken alone) (hgone : M.gone st.shared = false)
    {ts : List (Thread ρ)} (hasleep : .asleep ∈ ts → .asleep ∈ st.threads)
    (hout : alone = true → ∀ t ∈ wake woken ts, t = .out) :
    Sound M Inv (⟨s', wake woken ts⟩ : M.State) where
  inv := hM.inv h.inv hgone hsection
  sleepers hmem := by
    obtain ⟨rfl, hmem⟩ := mem_wake hmem
    exact hM.heeds h.inv hgone (h.sleepers (hasleep hmem)) hsection
  gone hgone' := by
    cases halone : alone with
    | true => exact hout halone
    | false =>
        subst halone
        have hstill := hM.gone hsection hgone
        rw [show M.gone s' = true from hgone'] at hstill
        cases hstill

/-- Threads come, sleep and go. -/
theorem step (h : Sound M Inv st) {e : Event α} {o : List ρ} (hstep : M.step st e = some (st', o)) :
    Sound M Inv st' := by
  cases e with
  | enter =>
      rw [Monitor.step] at hstep
      split at hstep
      · rename_i hdoor
        obtain ⟨rfl, rfl⟩ := Prod.mk.inj (Option.some.inj hstep)
        refine ⟨h.inv, fun hmem => h.sleepers ?_, fun hgone => ?_⟩
        · obtain hmem | hmem := List.mem_append.mp hmem
          · exact hmem
          · cases List.mem_singleton.mp hmem
        · rw [hM.closed hgone] at hdoor
          cases hdoor
      · cases hstep
  | act a =>
      rw [Monitor.step] at hstep
      split at hstep
      · cases hstep
      · rename_i halone
        obtain ⟨⟨s', woken⟩, hact, hst⟩ := Option.map_eq_some_iff.mp hstep
        obtain ⟨rfl, rfl⟩ := Prod.mk.inj hst
        have hgone : M.gone st.shared = false := by
          rw [Bool.eq_false_iff]
          intro hgone
          rw [hM.inert hgone] at hact
          cases hact
        refine h.under_lock hM (.act hact) hgone id fun hal => ?_
        have hall : st.threads.all Thread.isOut = true := by simpa [hal] using halone
        have hout : ∀ t ∈ st.threads, t = .out := fun t ht => by
          have hisOut := List.all_eq_true.mp hall t ht
          cases t <;> first | rfl | cases hisOut
        cases woken with
        | false => exact hout
        | true =>
            intro t ht
            obtain ⟨u, hu, rfl⟩ := List.mem_map.mp ht
            rw [hout u hu]
            rfl
  | test j =>
      rw [Monitor.step] at hstep
      split at hstep
      · rename_i hj
        have hgone := h.present hj (by simp)
        split at hstep
        · rename_i hwaits
          obtain ⟨rfl, rfl⟩ := Prod.mk.inj (Option.some.inj hstep)
          refine ⟨h.inv, fun _ => hwaits, fun hgone' => ?_⟩
          rw [show M.gone st.shared = true from hgone'] at hgone
          cases hgone
        · rename_i hwaits
          obtain ⟨rfl, rfl⟩ := Prod.mk.inj (Option.some.inj hstep)
          have hkept : Sound M Inv ⟨(M.take st.shared).1,
              wake false (st.threads.set j (.past (M.take st.shared).2))⟩ :=
            h.under_lock hM (.take (Bool.eq_false_iff.mpr hwaits)) hgone
              (asleep_mem_of_set (by simp)) fun hal => nomatch hal
          exact hkept
      · cases hstep
  | interrupt j =>
      rw [Monitor.step] at hstep
      split at hstep
      · rename_i hj
        have hgone := h.present hj (by simp)
        obtain ⟨rfl, rfl⟩ := Prod.mk.inj (Option.some.inj hstep)
        refine ⟨h.inv, fun hmem => h.sleepers (asleep_mem_of_set (by simp) hmem), fun hgone' => ?_⟩
        rw [show M.gone st.shared = true from hgone'] at hgone
        cases hgone
      · cases hstep
  | leave j =>
      rw [Monitor.step] at hstep
      split at hstep
      · rename_i hj
        have hgone := h.present hj (by simp)
        obtain ⟨rfl, rfl⟩ := Prod.mk.inj (Option.some.inj hstep)
        refine ⟨h.inv, fun hmem => h.sleepers (asleep_mem_of_set (by simp) hmem), fun hgone' => ?_⟩
        rw [show M.gone st.shared = true from hgone'] at hgone
        cases hgone
      · cases hstep
  | finish j =>
      rw [Monitor.step] at hstep
      split at hstep
      · rename_i r hj
        have hgone := h.present hj (by simp)
        obtain ⟨rfl, rfl⟩ := Prod.mk.inj (Option.some.inj hstep)
        exact h.under_lock hM (.finish r) hgone (asleep_mem_of_set (by simp)) fun hal => nomatch hal
      · cases hstep

/-- **Nobody sleeps who need not wait**, and nobody is inside once the lock is gone. -/
theorem run {ok : M.State → Event α → Prop} (h : Sound M Inv st) (hrun : Run M.step ok st st') :
    Sound M Inv st' :=
  hrun.invariant h fun _ _ _ _ hs _ hstep => hs.step hM hstep

/-! ## the door is shut -/

/-- Nobody sleeps behind a door that is shut. -/
theorem none_asleep (h : Sound M Inv st) (hdoor : M.door st.shared = false) :
    .asleep ∉ st.threads := by
  intro hmem
  have hwaits := h.sleepers hmem
  rw [hM.shut h.inv hdoor] at hwaits
  cases hwaits

/-- The door stays shut, and a thread that does something has less left to do. -/
theorem step_shut (h : Sound M Inv st) (hdoor : M.door st.shared = false) {e : Event α} {o : List ρ}
    (hstep : M.step st e = some (st', o)) :
    M.door st'.shared = false ∧
      stepsLeft st'.threads + (if e.byThread then 1 else 0) ≤ stepsLeft st.threads := by
  cases e with
  | enter =>
      rw [Monitor.step, hdoor] at hstep
      cases hstep
  | act a =>
      rw [Monitor.step] at hstep
      split at hstep
      · cases hstep
      · obtain ⟨⟨s', woken⟩, hact, hst⟩ := Option.map_eq_some_iff.mp hstep
        obtain ⟨rfl, rfl⟩ := Prod.mk.inj hst
        exact ⟨hM.door (.act hact) hdoor, stepsLeft_wake woken st.threads⟩
  | test j =>
      rw [Monitor.step] at hstep
      split at hstep
      · rename_i hj
        rw [hM.shut h.inv hdoor] at hstep
        obtain ⟨rfl, rfl⟩ := Prod.mk.inj (Option.some.inj hstep)
        exact ⟨hM.door (.take (hM.shut h.inv hdoor)) hdoor,
          Nat.le_of_eq (Nat.succ.inj (stepsLeft_set hj _))⟩
      · cases hstep
  | interrupt j =>
      rw [Monitor.step] at hstep
      split at hstep
      · rename_i hj
        exact absurd (List.mem_of_getElem? hj) (h.none_asleep hM hdoor)
      · cases hstep
  | leave j =>
      rw [Monitor.step] at hstep
      split at hstep
      · rename_i hj
        obtain ⟨rfl, rfl⟩ := Prod.mk.inj (Option.some.inj hstep)
        exact ⟨hdoor, Nat.le_of_eq (stepsLeft_set hj _)⟩
      · cases hstep
  | finish j =>
      rw [Monitor.step] at hstep
      split at hstep
      · rename_i r hj
        obtain ⟨rfl, rfl⟩ := Prod.mk.inj (Option.some.inj hstep)
        exact ⟨hM.door (.finish r) hdoor,
          Nat.le_trans (Nat.add_le_add_right (stepsLeft_wake _ _) 1)
            (Nat.le_of_eq (stepsLeft_set hj _))⟩
      · cases hstep

/-- **Behind a door that is shut threads come to an end**: whatever else happens, they do no
more than they had left to do. -/
theorem steps_left (h : Sound M Inv st) (hdoor : M.door st.shared = false) {es : List (Event α)}
    (hrun : exec M.step (fun _ _ => True) st es = some st') :
    M.door st'.shared = false ∧ Sound M Inv st' ∧
      stepsLeft st'.threads + es.countP Event.byThread ≤ stepsLeft st.threads := by
  induction es generalizing st with
  | nil =>
      obtain rfl := Option.some.inj hrun
      exact ⟨hdoor, h, Nat.le_refl _⟩
  | cons e es ih =>
      rw [exec, if_pos trivial] at hrun
      cases hstep : M.step st e with
      | none => simp [hstep] at hrun
      | some r =>
          obtain ⟨st₁, o⟩ := r
          simp only [hstep] at hrun
          obtain ⟨hdoor₁, hfirst⟩ := h.step_shut hM hdoor hstep
          obtain ⟨hdoor', h', hrest⟩ := ih (h.step hM hstep) hdoor₁ hrun
          refine ⟨hdoor', h', ?_⟩
          rw [List.countP_cons]
          omega

/-- As long as one is inside, one can do something. -/
theorem moves (h : Sound M Inv st) (hdoor : M.door st.shared = false)
    (hin : ∃ t ∈ st.threads, t ≠ .out) : ∃ e : Event α, e.byThread ∧ (M.step st e).isSome := by
  obtain ⟨t, ht, hout⟩ := hin
  obtain ⟨j, hj⟩ := List.mem_iff_getElem?.mp ht
  cases t with
  | testing => exact ⟨.test j, rfl, by simp [Monitor.step, hj, hM.shut h.inv hdoor]⟩
  | asleep => exact absurd ht (h.none_asleep hM hdoor)
  | past r => exact ⟨.leave j, rfl, by simp [Monitor.step, hj]⟩
  | out => exact absurd rfl hout

end Sound

end Monitor

end Pfsnitch.Lib
