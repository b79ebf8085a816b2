import Mathlib.Data.List.Basic

/-!
# Pfsnitch.Lib.Filter

Packet filters whose last matching rule decides, and the states they keep.

A ruleset is a list of rules and anchors, which are rulesets of their own.  A rule that is
quick ends the evaluation.  `Item.verdict_eq` says what this comes to: anchors are read in
place, and of the rules that match the first quick one decides, or else the last one.

A packet of a flow that has a state is not shown to the rules: it gets what the state says.
`States.step_forall` is the rule for runs: what holds of everything the rules say of new
flows holds of every state, and so of every packet.
-/

namespace Pfsnitch.Lib.Filter

universe u v w

variable {π : Type u} {δ : Type v} {κ : Type w}

/-! ## rulesets -/

/-- What a rule matches, whether it ends the evaluation, and what it says. -/
structure Rule (π : Type u) (δ : Type v) where
  covers : π → Bool
  quick : Bool
  effect : δ

/-- An entry of a ruleset. -/
inductive Item (π : Type u) (δ : Type v) where
  | rule (r : Rule π δ)
  | anchor (items : List (Item π δ))

/-- Where an evaluation stands: what the last rule that matched said, and whether that ended
it. -/
structure Standing (δ : Type v) where
  said : Option δ := none
  ended : Bool := false

/-- A rule is shown a packet. -/
def Rule.meet (r : Rule π δ) (p : π) (s : Standing δ) : Standing δ :=
  if s.ended then s else if r.covers p then ⟨some r.effect, r.quick⟩ else s

mutual

/-- An entry is shown a packet. -/
def Item.meet (p : π) : Item π δ → Standing δ → Standing δ
  | .rule r, s => r.meet p s
  | .anchor items, s => Item.meetAll p items s

/-- A ruleset is shown a packet. -/
def Item.meetAll (p : π) : List (Item π δ) → Standing δ → Standing δ
  | [], s => s
  | item :: items, s => Item.meetAll p items (Item.meet p item s)

end

/-- What a ruleset says of a packet. -/
def Item.verdict (items : List (Item π δ)) (p : π) : Option δ := (Item.meetAll p items {}).said

mutual

/-- The rules of an entry in the order in which they are read. -/
def Item.rules : Item π δ → List (Rule π δ)
  | .rule r => [r]
  | .anchor items => Item.rulesAll items

def Item.rulesAll : List (Item π δ) → List (Rule π δ)
  | [] => []
  | item :: items => item.rules ++ Item.rulesAll items

end

/-- The rule that decides: the first quick one that matches, or the last one that does. -/
def decisive (rules : List (Rule π δ)) (p : π) : Option (Rule π δ) :=
  match rules.find? fun r => r.covers p && r.quick with
  | some r => some r
  | none => (rules.filter fun r => r.covers p).getLast?

/-- Rules one after the other. -/
def meetRules (p : π) (rules : List (Rule π δ)) (s : Standing δ) : Standing δ :=
  rules.foldl (fun s r => r.meet p s) s

/-- Nothing is read after the end. -/
theorem meetRules_ended (p : π) (rules : List (Rule π δ)) {s : Standing δ} (h : s.ended = true) :
    meetRules p rules s = s := by
  induction rules with
  | nil => rfl
  | cons r rules ih =>
      rw [meetRules, List.foldl_cons, Rule.meet, if_pos h]
      exact ih

mutual

/-- Anchors are read in place. -/
theorem Item.meet_eq (p : π) (item : Item π δ) (s : Standing δ) :
    Item.meet p item s = meetRules p item.rules s := by
  cases item with
  | rule r => rfl
  | anchor items =>
      rw [Item.meet, Item.rules]
      exact Item.meetAll_eq p items s

theorem Item.meetAll_eq (p : π) (items : List (Item π δ)) (s : Standing δ) :
    Item.meetAll p items s = meetRules p (Item.rulesAll items) s := by
  cases items with
  | nil => rfl
  | cons item items =>
      rw [Item.meetAll, Item.rulesAll, Item.meet_eq p item s, Item.meetAll_eq p items]
      exact (List.foldl_append ..).symm

end

/-- Until a rule ends it, an evaluation goes on with what was said. -/
theorem meetRules_said (p : π) (rules : List (Rule π δ)) {s : Standing δ} (h : s.ended = false) :
    (meetRules p rules s).said = ((decisive rules p).map Rule.effect).or s.said := by
  induction rules generalizing s with
  | nil => rfl
  | cons r rules ih =>
      have hopen : ¬s.ended = true := by rw [h]; exact Bool.false_ne_true
      rw [meetRules, List.foldl_cons, Rule.meet, if_neg hopen]
      by_cases hcovers : r.covers p = true
      · rw [if_pos hcovers]
        cases hquick : r.quick with
        | true =>
            have hends := meetRules_ended p rules (s := ⟨some r.effect, true⟩) rfl
            rw [meetRules] at hends
            rw [hends, decisive, List.find?_cons_of_pos (by rw [hcovers, hquick]; rfl)]
            rfl
        | false =>
            have hlater := ih (s := ⟨some r.effect, false⟩) rfl
            rw [meetRules] at hlater
            have hfilter : (r :: rules).filter (fun r => r.covers p) =
                r :: rules.filter fun r => r.covers p := List.filter_cons_of_pos hcovers
            rw [hlater, decisive, decisive, List.find?_cons_of_neg (by rw [hquick]; simp), hfilter]
            cases rules.find? fun r => r.covers p && r.quick with
            | some q => rfl
            | none =>
                rw [List.getLast?_cons]
                cases (rules.filter fun r => r.covers p).getLast? with
                | none => rfl
                | some q => rfl
      · rw [if_neg hcovers]
        have hlater := ih h
        rw [meetRules] at hlater
        have hfilter : (r :: rules).filter (fun r => r.covers p) =
            rules.filter fun r => r.covers p := List.filter_cons_of_neg hcovers
        rw [hlater, decisive, decisive, List.find?_cons_of_neg (by simp [hcovers]), hfilter]

/-- What a ruleset says: what the decisive one of its rules does. -/
theorem Item.verdict_eq (items : List (Item π δ)) (p : π) :
    Item.verdict items p = (decisive (Item.rulesAll items) p).map Rule.effect := by
  rw [Item.verdict, Item.meetAll_eq, meetRules_said p _ rfl, Option.or_none]

/-! ## states -/

variable [DecidableEq κ]

/-- The states: what was said of the flows that are known. -/
abbrev States (κ : Type w) (δ : Type v) := List (κ × δ)

/-- A packet: the state of its flow decides, or else the rules do, and what they say of it may
be kept for the flow. -/
def States.step (flow : π → κ) (keeps : δ → Bool) (rules : π → δ) (t : States κ δ) (p : π) :
    δ × States κ δ :=
  match t.lookup (flow p) with
  | some d => (d, t)
  | none => (rules p, if keeps (rules p) then (flow p, rules p) :: t else t)

/-- What holds of the states and of what the rules say of a new flow, holds of the packet and
of the states behind it. -/
theorem States.step_forall {flow : π → κ} {keeps : δ → Bool} {rules : π → δ} {t : States κ δ}
    {p : π} {P : κ → δ → Prop} (ht : ∀ k d, (k, d) ∈ t → P k d) (hrules : P (flow p) (rules p)) :
    P (flow p) (t.step flow keeps rules p).1 ∧
      ∀ k d, (k, d) ∈ (t.step flow keeps rules p).2 → P k d := by
  rw [States.step]
  cases hlookup : t.lookup (flow p) with
  | some d =>
      obtain ⟨front, back, heq, -⟩ := List.lookup_eq_some_iff.mp hlookup
      exact ⟨ht _ _ (heq ▸ List.mem_append_right _ List.mem_cons_self), ht⟩
  | none =>
      refine ⟨hrules, fun k d hmem => ?_⟩
      by_cases hkeep : keeps (rules p) = true
      · rw [if_pos hkeep] at hmem
        obtain heq | hmem := List.mem_cons.mp hmem
        · obtain ⟨rfl, rfl⟩ := Prod.mk.inj heq
          exact hrules
        · exact ht k d hmem
      · rw [if_neg hkeep] at hmem
        exact ht k d hmem

end Pfsnitch.Lib.Filter
