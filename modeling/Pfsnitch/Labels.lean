import Pfsnitch.Kernel.Labels

/-!
# Pfsnitch.Labels

Records of creators are what they are for: a map from sockets to the processes that
created them.  `Tracks` is the invariant that carries this through every event.
-/

namespace Pfsnitch

open Lib

/-! ## what the records are for -/

/-- The processes the module knows of, socket by socket. -/
structure Owners where
  mac : Mac := {}
  owner : Nat → Option CurProc := fun _ => none

namespace Owners

/-- A socket belongs to the process that creates it under the module, until it goes away or
the module does. -/
def after (m : Mac) (owner : Nat → Option CurProc) : LabelEvent → Nat → Option CurProc
  | .load _ | .drain => fun _ => none
  | .socreate s _ p =>
    if m.phase.isRegistered ∧ (m.socks s).any fun so => so.labelled then
      Function.update owner s (some p)
    else owner
  | .sodealloc s => Function.update owner s none
  | .unregister | .soalloc _ _ | .connect _ | .query _ | .finish _ => owner

/-- What is seen of an event. -/
def seen (m : Mac) (owner : Nat → Option CurProc) : LabelEvent → LabelSeen
  | .finish i =>
    match m.calls[i]? with
    | some call => .creator call.sock ((owner call.sock).map CurProc.creator)
    | none => .quiet
  | _ => .quiet

def step (o : Owners) (ev : LabelEvent) : Owners × LabelSeen :=
  if o.mac.may ev then (⟨o.mac.next ev, after o.mac o.owner ev⟩, seen o.mac o.owner ev)
  else (o, .quiet)

def run (o : Owners) : List LabelEvent → Owners × List LabelSeen
  | [] => (o, [])
  | ev :: evs =>
    let (o, seen) := o.step ev
    let (o, rest) := run o evs
    (o, seen :: rest)

end Owners

/-- The records of the processes. -/
def recorded (owner : Nat → Option CurProc) (s : Nat) : Option Creator :=
  (owner s).map CurProc.creator

theorem recorded_update (owner : Nat → Option CurProc) (s : Nat) (p : Option CurProc) :
    recorded (Function.update owner s p) =
      Function.update (recorded owner) s (p.map CurProc.creator) :=
  Function.comp_update (Option.map CurProc.creator) owner s p

/-! ## slots -/

namespace Creators

variable {c : Creators} {s s' n n' : Nat} {p : Option Nat}

/-- The records the sockets point to, in the slot of the policy. -/
def held (c : Creators) (phase : Phase) (s : Nat) : Option Nat :=
  phase.slot.bind (c.slot s)

theorem held_eq {phase : Phase} (h : phase.slot = some n) : c.held phase = fun s => c.slot s n := by
  funext s
  rw [held, h, Option.bind_some]

theorem slot_slotSet_self (h : (c.labels s).isSome) : (c.slotSet s n p).slot s n = p := by
  obtain ⟨label, hlabel⟩ := Option.isSome_iff_exists.mp h
  simp only [slot, slotSet, Function.update_self, hlabel, Option.map_some, Option.bind_some]

theorem slot_slotSet_of_ne (h : s' ≠ s ∨ n' ≠ n) : (c.slotSet s n p).slot s' n' = c.slot s' n' := by
  simp only [slot, slotSet]
  by_cases hs : s' = s
  · have hn : n' ≠ n := h.resolve_left (not_not.mpr hs)
    rw [hs, Function.update_self]
    cases c.labels s with
    | none => rfl
    | some label => exact Function.update_of_ne hn p label
  · rw [Function.update_of_ne hs]

theorem slots_slotSet (h : (c.labels s).isSome) :
    (fun s' => (c.slotSet s n p).slot s' n) = Function.update (fun s' => c.slot s' n) s p := by
  funext s'
  by_cases hs : s' = s
  · rw [hs, slot_slotSet_self h, Function.update_self]
  · rw [slot_slotSet_of_ne (.inl hs), Function.update_of_ne hs]

theorem isSome_labels_slotSet : ((c.slotSet s n p).labels s').isSome = (c.labels s').isSome := by
  simp only [slotSet]
  by_cases hs : s' = s
  · rw [hs, Function.update_self, Option.isSome_map]
  · rw [Function.update_of_ne hs]

theorem slot_of_labels (h : c.labels s = none) : c.slot s n = none := by
  rw [slot, h, Option.bind_none]

/-- An empty slot may be cleared. -/
theorem slot_clear (h : c.slot s n = none) : (c.slotSet s n none).slot s' n' = c.slot s' n' := by
  by_cases hwhere : s' = s ∧ n' = n
  · obtain ⟨rfl, rfl⟩ := hwhere
    cases hlabel : c.labels s' with
    | some label => rw [slot_slotSet_self (by rw [hlabel]; rfl), h]
    | none =>
        have hlabel' : (c.slotSet s' n' none).labels s' = none := by
          simp only [slotSet, Function.update_self, hlabel, Option.map_none]
        rw [slot_of_labels hlabel', h]
  · exact slot_slotSet_of_ne (by tauto)

/-- A socket gets another label, or none. -/
theorem slot_update {label : Option SockLabel} :
    Creators.slot { c with labels := Function.update c.labels s label } s' n =
      if s' = s then label.bind fun label => label n else c.slot s' n := by
  simp only [slot]
  split
  · rename_i hs
    rw [hs, Function.update_self]
  · rename_i hs
    rw [Function.update_of_ne hs]

end Creators

/-! ## the records and the map -/

/-- The records stand for the map. -/
structure Tracks (m : Mac) (c : Creators) (owner : Nat → Option CurProc) : Prop where
  custody : Custody c.ledger (c.held m.phase)
  owner : c.ledger.holding (c.held m.phase) = recorded owner
  absent : m.phase = .absent → c.ledger = .empty ∧ m.calls = []
  slotted : ∀ slot, m.phase.slot = some slot → slot ∈ m.used
  labelled : ∀ s, (c.labels s).isSome = (m.socks s).any fun so => so.labelled
  /-- Slots that were never handed out are empty. -/
  cleared : ∀ s slot, slot ∉ m.used → c.slot s slot = none
  uncreated : ∀ s so, m.socks s = some so → so.created = false → ∀ slot, c.slot s slot = none
  /-- As long as the policy is registered, each record has a socket that points to it. -/
  covered : m.phase.isRegistered → Covered c.ledger (c.held m.phase)

namespace Tracks

variable {m : Mac} {c : Creators} {owner : Nat → Option CurProc} {s n : Nat}
  {malloc : Malloc Nat Creator}

theorem fresh : Tracks {} {} fun _ => none where
  custody := .empty
  owner := rfl
  absent _ := ⟨rfl, rfl⟩
  slotted _ h := nomatch h
  labelled _ := rfl
  cleared _ _ _ := rfl
  uncreated _ _ h := nomatch h
  covered h := nomatch h

/-- A socket that is not there has no label. -/
theorem slot_eq_none (h : Tracks m c owner) (hs : m.socks s = none) (slot : Nat) :
    c.slot s slot = none := by
  have hlabel : c.labels s = none := by
    have hsome := h.labelled s
    rw [hs] at hsome
    exact Option.isSome_eq_false_iff.mp hsome |> Option.isNone_iff_eq_none.mp
  rw [Creators.slot, hlabel, Option.bind_none]

/-- What a call reads. -/
theorem identity (h : Tracks m c owner) {slot : Nat} (hslot : m.phase.slot = some slot) (s : Nat) :
    c.identity slot s = .ok (recorded owner s) := by
  rw [Creators.identity, ← h.owner, Ledger.holding, Creators.held, hslot, Option.bind_some]
  cases hheld : c.slot s slot with
  | none => rfl
  | some p =>
      have hp : c.held m.phase s = some p := by rw [Creators.held, hslot, Option.bind_some, hheld]
      obtain ⟨v, hread, hval⟩ := h.custody.read hp
      rw [Ledger.holding, hp] at hval
      rw [hval]
      simp only [hread]

/-- A creator that is known: its socket is there, and has a record. -/
theorem has_record (h : Tracks m c owner) {p : CurProc} (hp : owner s = some p) :
    (m.socks s).isSome ∧
      ∃ info, c.held m.phase s = some info ∧ c.ledger.heap.lookup info = some p.creator := by
  have hvalue : c.ledger.holding (c.held m.phase) s = some p.creator := by
    rw [h.owner, recorded, hp, Option.map_some]
  obtain ⟨info, hinfo, hlookup⟩ := Option.bind_eq_some_iff.mp hvalue
  refine ⟨?_, info, hinfo, hlookup⟩
  by_contra hnone
  obtain ⟨slot, -, hslot⟩ := Option.bind_eq_some_iff.mp hinfo
  rw [h.slot_eq_none (Option.not_isSome_iff_eq_none.mp hnone)] at hslot
  cases hslot

/-! ## one event -/

theorem load (h : Tracks m c owner) {slot : Nat} (hmay : m.may (.load slot)) :
    Tracks (m.next (.load slot)) { c with ledger := { c.ledger with all := [] } } fun _ => none := by
  obtain ⟨habsent, hslot⟩ := of_decide_eq_true hmay
  obtain ⟨hledger, hcalls⟩ := h.absent habsent
  have hheld : Creators.held { c with ledger := { c.ledger with all := [] } } (.registered slot) =
      fun _ => none := by
    rw [Creators.held_eq rfl]
    exact funext fun s => h.cleared s slot hslot
  have hempty : { c.ledger with all := [] } = Ledger.empty := by rw [hledger]; rfl
  refine
    { custody := ?_
      owner := ?_
      absent := fun habs => nomatch habs
      slotted := fun slot' heq => ?_
      labelled := h.labelled
      cleared := fun s n hn => h.cleared s n fun hmem => hn (List.mem_cons_of_mem _ hmem)
      uncreated := h.uncreated
      covered := fun _ p hp => nomatch hp }
  · change Custody { c.ledger with all := [] } (Creators.held _ (.registered slot))
    rw [hheld, hempty]
    exact .empty
  · change Ledger.holding _ (Creators.held _ (.registered slot)) = _
    rw [hheld]
    rfl
  · obtain rfl := Option.some.inj heq
    exact List.mem_cons_self

/-- An event that changes no record and no slot. -/
theorem frame (h : Tracks m c owner) {m' : Mac} {c' : Creators} (hledger : c'.ledger = c.ledger)
    (hslots : ∀ s n, c'.slot s n = c.slot s n) (hslot : m'.phase.slot = m.phase.slot)
    (habsent : m'.phase = .absent → m.phase = .absent ∧ m'.calls = m.calls) (hused : m'.used = m.used)
    (hlabelled : ∀ s, (c'.labels s).isSome = (m'.socks s).any fun so => so.labelled)
    (huncreated : ∀ s so, m'.socks s = some so → so.created = false → ∀ n, c.slot s n = none)
    (hreg : m'.phase.isRegistered → m.phase.isRegistered) : Tracks m' c' owner := by
  have hheld : c'.held m'.phase = c.held m.phase := by
    funext s
    rw [Creators.held, Creators.held, hslot]
    exact congrArg _ (funext fun n => hslots s n)
  refine
    { custody := by rw [hledger, hheld]; exact h.custody
      owner := by rw [hledger, hheld]; exact h.owner
      absent := fun habs => ?_
      slotted := by rw [hslot, hused]; exact h.slotted
      labelled := hlabelled
      cleared := fun s n hn => by rw [hslots]; exact h.cleared s n (hused ▸ hn)
      uncreated := fun s so hs hso n => by rw [hslots]; exact huncreated s so hs hso n
      covered := by rw [hledger, hheld]; exact fun hr => h.covered (hreg hr) }
  rw [hledger, (habsent habs).2]
  exact h.absent (habsent habs).1

/-- A socket that is new: its label is empty in every slot. -/
theorem soalloc (h : Tracks m c owner) {labelled : Bool} (hmay : m.may (.soalloc s labelled)) :
    ∃ c', c.step malloc m (.soalloc s labelled) = .ok (c', .quiet) ∧
      Tracks (m.next (.soalloc s labelled)) c' owner := by
  have hnone : m.socks s = none := Option.isNone_iff_eq_none.mp (of_decide_eq_true hmay).1
  let label : Option SockLabel := if labelled then some fun _ => none else none
  let new : Creators := { c with labels := Function.update c.labels s label }
  have hslots : ∀ s' n, new.slot s' n = c.slot s' n := by
    intro s' n
    rw [Creators.slot_update]
    split
    · rename_i hs
      rw [hs, h.slot_eq_none hnone]
      cases labelled <;> rfl
    · rfl
  have hlabels : ∀ s', (new.labels s').isSome =
      ((m.next (.soalloc s labelled)).socks s').any fun so => so.labelled := by
    intro s'
    by_cases hs : s' = s
    · simp only [new, Mac.next, hs, Function.update_self, Option.any_some]
      cases labelled <;> rfl
    · simp only [new, Mac.next, Function.update_of_ne hs]
      exact h.labelled s'
  have huncreated : ∀ s' so, (m.next (.soalloc s labelled)).socks s' = some so →
      so.created = false → ∀ n, c.slot s' n = none := by
    intro s' so hs' hso
    by_cases hs : s' = s
    · exact hs ▸ h.slot_eq_none hnone
    · simp only [Mac.next, Function.update_of_ne hs] at hs'
      exact h.uncreated s' so hs' hso
  have hall : ∀ c' : Creators, c'.ledger = c.ledger → (∀ s n, c'.slot s n = new.slot s n) →
      (∀ s, (c'.labels s).isSome = (new.labels s).isSome) →
      Tracks (m.next (.soalloc s labelled)) c' owner := fun c' hledger hslot hlabel =>
    h.frame hledger (fun s n => (hslot s n).trans (hslots s n)) rfl (fun habs => ⟨habs, rfl⟩) rfl
      (fun s => (hlabel s).trans (hlabels s)) huncreated id
  cases hphase : m.phase with
  | registered slot =>
      refine ⟨new.slotSet s slot none, by rw [Creators.step, hphase], hall _ rfl (fun s' n => ?_)
        fun s' => Creators.isSome_labels_slotSet⟩
      exact Creators.slot_clear ((hslots s slot).trans (h.slot_eq_none hnone slot))
  | absent => exact ⟨new, by rw [Creators.step, hphase], hall _ rfl (fun _ _ => rfl) fun _ => rfl⟩
  | leaving slot => exact ⟨new, by rw [Creators.step, hphase], hall _ rfl (fun _ _ => rfl) fun _ => rfl⟩

/-- The label of a socket that is created: a record of its own, if the policy is there. -/
theorem socreate (h : Tracks m c owner) {p : CurProc} (hmay : m.may (.socreate s n p)) :
    ∃ c', c.step malloc m (.socreate s n p) = .ok (c', .quiet) ∧
      Tracks (m.next (.socreate s n p)) c' (Owners.after m owner (.socreate s n p)) := by
  obtain ⟨so, hso, hcreated⟩ := (Option.any_eq_true _ _).mp hmay
  have hempty : ∀ slot, c.slot s slot = none := h.uncreated s so hso (by simpa using hcreated)
  have hlabelled : ∀ s', (c.labels s').isSome =
      ((m.next (.socreate s n p)).socks s').any fun so => so.labelled := by
    intro s'
    rw [h.labelled]
    by_cases hs : s' = s
    · simp only [Mac.next, hs, Function.update_self, hso, Option.map_some, Option.any_some]
    · simp only [Mac.next, Function.update_of_ne hs]
  have huncreated : ∀ s' so', (m.next (.socreate s n p)).socks s' = some so' →
      so'.created = false → s' ≠ s ∧ ∀ slot, c.slot s' slot = none := by
    intro s' so' hs' hso'
    by_cases hs : s' = s
    · simp only [Mac.next, hs, Function.update_self, hso, Option.map_some] at hs'
      obtain rfl := Option.some.inj hs'
      cases hso'
    · simp only [Mac.next, Function.update_of_ne hs] at hs'
      exact ⟨hs, h.uncreated s' so' hs' hso'⟩
  have hquiet : Tracks (m.next (.socreate s n p)) c owner :=
    h.frame rfl (fun _ _ => rfl) rfl (fun habs => ⟨habs, rfl⟩) rfl hlabelled
      (fun s' so' hs' hso' => (huncreated s' so' hs' hso').2) id
  cases hphase : m.phase with
  | absent =>
      refine ⟨c, by rw [Creators.step, hphase], ?_⟩
      rwa [Owners.after, hphase, if_neg fun hreg => Bool.noConfusion hreg.1]
  | leaving slot =>
      refine ⟨c, by rw [Creators.step, hphase], ?_⟩
      rwa [Owners.after, hphase, if_neg fun hreg => Bool.noConfusion hreg.1]
  | registered slot =>
      have hslot : m.phase.slot = some slot := by rw [hphase]; rfl
      refine ⟨c.socketCreate malloc slot s n p, by rw [Creators.step, hphase], ?_⟩
      rw [Owners.after, hphase, ← h.labelled, Creators.socketCreate]
      cases hlabel : (c.labels s).isSome with
      | false =>
          rw [if_pos (by rw [← Option.not_isSome, hlabel]; rfl), if_neg fun hreg => nomatch hreg.2]
          exact hquiet
      | true =>
          rw [if_neg (by rw [← Option.not_isSome, hlabel]; decide), if_pos ⟨rfl, rfl⟩]
          -- a record that nobody has goes to a label that has none
          let info := malloc.pick n c.ledger.heap
          let c₁ : Creators := { c with ledger := c.ledger.add info p.creator }
          have hfree : info ∉ c.ledger.heap := malloc.fresh n c.ledger.heap
          have hheld : (c₁.slotSet s slot (some info)).held m.phase =
              Function.update (c.held m.phase) s (some info) := by
            rw [Creators.held_eq hslot, Creators.held_eq hslot]
            exact Creators.slots_slotSet (c := c₁) hlabel
          have hnone : c.held m.phase s = none := by
            rw [Creators.held_eq hslot]
            exact hempty slot
          refine
            { custody := ?_
              owner := ?_
              absent := fun habs => ?_
              slotted := h.slotted
              labelled := fun s' => Creators.isSome_labels_slotSet.trans (hlabelled s')
              cleared := fun s' n hn => ?_
              uncreated := fun s' so' hs' hso' n => ?_
              covered := fun hreg => ?_ }
          · change Custody (c.ledger.add info p.creator) (Creators.held _ m.phase)
            rw [hheld]
            exact h.custody.add hfree _ s
          · change (c.ledger.add info p.creator).holding (Creators.held _ m.phase) = _
            rw [hheld, h.custody.holding_add hfree, h.owner, recorded_update, Option.map_some]
          · rw [(show m.phase = .absent from habs)] at hphase
            cases hphase
          · have hne : n ≠ slot := fun heq => hn (heq ▸ h.slotted slot hslot)
            exact (Creators.slot_slotSet_of_ne (.inr hne)).trans (h.cleared s' n hn)
          · obtain ⟨hne, hnone⟩ := huncreated s' so' hs' hso'
            exact (Creators.slot_slotSet_of_ne (.inl hne)).trans (hnone n)
          · change Covered (c.ledger.add info p.creator) (Creators.held _ m.phase)
            rw [hheld]
            exact Custody.covered_add (h.covered hreg) _ hnone

/-- A socket is gone, and what its label pointed to with it. -/
theorem gone (h : Tracks m c owner) {ledger : Ledger Nat Creator}
    (hcustody : Custody ledger (Function.update (c.held m.phase) s none))
    (hholding : ledger.holding (Function.update (c.held m.phase) s none) =
      recorded (Function.update owner s none))
    (habsent : m.phase = .absent → ledger = .empty)
    (hcovered : m.phase.isRegistered → Covered ledger (Function.update (c.held m.phase) s none))
    {c' : Creators} (hledger : c'.ledger = ledger)
    (hlabels : c'.labels = Function.update c.labels s none) :
    Tracks (m.next (.sodealloc s)) c' (Owners.after m owner (.sodealloc s)) := by
  have hslots : ∀ s' n, c'.slot s' n = if s' = s then none else c.slot s' n := by
    intro s' n
    rw [Creators.slot, hlabels]
    split
    · rename_i hs
      rw [hs, Function.update_self, Option.bind_none]
    · rename_i hs
      rw [Function.update_of_ne hs, Creators.slot]
  have hheld : c'.held m.phase = Function.update (c.held m.phase) s none := by
    funext s'
    rw [Creators.held]
    cases hslot : m.phase.slot with
    | none =>
        by_cases hs : s' = s
        · rw [hs, Function.update_self, Option.bind_none]
        · rw [Function.update_of_ne hs, Creators.held, hslot]
          rfl
    | some slot =>
        rw [Option.bind_some, hslots]
        by_cases hs : s' = s
        · rw [if_pos hs, hs, Function.update_self]
        · rw [if_neg hs, Function.update_of_ne hs, Creators.held, hslot, Option.bind_some]
  refine
    { custody := by rw [hledger]; exact hheld ▸ hcustody
      owner := by rw [hledger]; exact hheld ▸ hholding
      absent := fun habs => ⟨hledger.trans (habsent habs), (h.absent habs).2⟩
      slotted := h.slotted
      labelled := fun s' => ?_
      cleared := fun s' n hn => ?_
      uncreated := fun s' so hs' hso n => ?_
      covered := by rw [hledger]; exact hheld ▸ hcovered }
  · by_cases hs : s' = s
    · simp only [Mac.next, hlabels, hs, Function.update_self, Option.isSome_none, Option.any_none]
    · simp only [Mac.next, hlabels, Function.update_of_ne hs]
      exact h.labelled s'
  · rw [hslots, h.cleared s' n hn, ite_self]
  · by_cases hs : s' = s
    · rw [hslots, if_pos hs]
    · simp only [Mac.next, Function.update_of_ne hs] at hs'
      rw [hslots, if_neg hs, h.uncreated s' so hs' hso]

theorem sodealloc (h : Tracks m c owner) :
    ∃ c', c.step malloc m (.sodealloc s) = .ok (c', .quiet) ∧
      Tracks (m.next (.sodealloc s)) c' (Owners.after m owner (.sodealloc s)) := by
  have hlost := h.custody.lose s
  have hafter : recorded (Function.update owner s none) = Function.update (recorded owner) s none :=
    recorded_update owner s none
  have hholding : c.ledger.holding (Function.update (c.held m.phase) s none) =
      recorded (Function.update owner s none) := by rw [Custody.holding_lose, h.owner, hafter]
  have habsent := fun habs => (h.absent habs).1
  let c' : Creators := { c with labels := Function.update c.labels s none }
  cases hphase : m.phase with
  | absent =>
      refine ⟨c', by rw [Creators.step, hphase], h.gone hlost hholding habsent ?_ rfl rfl⟩
      exact fun hreg => by rw [hphase] at hreg; cases hreg
  | leaving slot =>
      refine ⟨c', by rw [Creators.step, hphase], h.gone hlost hholding habsent ?_ rfl rfl⟩
      exact fun hreg => by rw [hphase] at hreg; cases hreg
  | registered slot =>
      have hheld : c.held m.phase s = c.slot s slot := by rw [hphase]; rfl
      cases hslot : c.slot s slot with
      | none =>
          -- a label without a record
          have hnone : Function.update (c.held m.phase) s none = c.held m.phase := by
            rw [← hslot, ← hheld, Function.update_eq_self]
          refine ⟨c', ?_, h.gone hlost hholding habsent (fun hreg => ?_) rfl rfl⟩
          · simp only [Creators.step, hphase, Creators.destroyLabel, hslot]
            rfl
          · rw [hnone]
            exact h.covered hreg
      | some info =>
          obtain ⟨ledger, hremove, hcustody, hvalues⟩ := h.custody.remove (hheld.trans hslot)
          rw [h.owner, ← hafter] at hvalues
          let freed : Creators := { c with ledger }.slotSet s slot none
          refine ⟨{ freed with labels := Function.update freed.labels s none }, ?_,
            h.gone hcustody hvalues (fun habs => ?_) (fun hreg => ?_) rfl ?_⟩
          · simp only [Creators.step, hphase, Creators.destroyLabel, hslot, hremove]
            rfl
          · rw [hphase] at habs
            cases habs
          · exact h.custody.covered_remove (h.covered hreg) (hheld.trans hslot) hremove
          · exact Function.update_idem ..

theorem drain (h : Tracks m c owner) (hmay : m.may .drain) :
    ∃ c', c.step malloc m .drain = .ok (c', .quiet) ∧
      Tracks (m.next .drain) c' (Owners.after m owner .drain) := by
  obtain ⟨-, -, hcalls⟩ := of_decide_eq_true hmay
  refine ⟨{ c with ledger := .empty }, by rw [Creators.step, h.custody.listed.drain], ?_⟩
  exact
    { custody := .empty
      owner := rfl
      absent := fun _ => ⟨rfl, hcalls⟩
      slotted := fun _ hslot => nomatch hslot
      labelled := h.labelled
      cleared := h.cleared
      uncreated := h.uncreated
      covered := fun hreg => nomatch hreg }

theorem finish (h : Tracks m c owner) {i : Nat} (hmay : m.may (.finish i)) :
    ∃ c', c.step malloc m (.finish i) = .ok (c', Owners.seen m owner (.finish i)) ∧
      Tracks (m.next (.finish i)) c' owner := by
  have hi : i < m.calls.length := of_decide_eq_true hmay
  have hcall : m.calls[i]? = some m.calls[i] := List.getElem?_eq_getElem hi
  obtain ⟨slot, hslot⟩ : ∃ slot, m.phase.slot = some slot := by
    cases hphase : m.phase with
    | absent =>
        rw [(h.absent hphase).2] at hi
        cases hi
    | registered slot => exact ⟨slot, rfl⟩
    | leaving slot => exact ⟨slot, rfl⟩
  refine ⟨c, ?_, h.frame rfl (fun _ _ => rfl) rfl (fun habs => ?_) rfl h.labelled h.uncreated id⟩
  · simp only [Creators.step, hslot, hcall, h.identity hslot, Owners.seen, recorded]
  · rw [(show m.phase = .absent from habs)] at hslot
    cases hslot

/-- One event that can happen. -/
theorem event (h : Tracks m c owner) {ev : LabelEvent} (hmay : m.may ev) :
    ∃ c', c.step malloc m ev = .ok (c', Owners.seen m owner ev) ∧
      Tracks (m.next ev) c' (Owners.after m owner ev) := by
  cases ev with
  | load slot => exact ⟨_, rfl, h.load hmay⟩
  | unregister =>
      obtain ⟨hreg, -⟩ := of_decide_eq_true hmay
      refine ⟨c, rfl, ?_⟩
      cases hphase : m.phase with
      | registered slot =>
          refine h.frame rfl (fun _ _ => rfl) ?_ ?_ ?_ ?_ ?_ ?_
          all_goals rw [Mac.next, hphase]
          · rfl
          · exact fun habs => nomatch habs
          · exact h.labelled
          · exact h.uncreated
          · exact fun hreg => nomatch hreg
      | absent | leaving => rw [hphase] at hreg; cases hreg
  | drain => exact h.drain hmay
  | soalloc s labelled => exact h.soalloc hmay
  | socreate s n p => exact h.socreate hmay
  | sodealloc s => exact h.sodealloc
  | connect s =>
      obtain ⟨-, hreg⟩ := of_decide_eq_true hmay
      refine ⟨c, rfl, h.frame rfl (fun _ _ => rfl) rfl (fun habs => ?_) rfl h.labelled h.uncreated id⟩
      rw [(show m.phase = .absent from habs)] at hreg
      cases hreg
  | query s =>
      obtain ⟨-, hthere⟩ := of_decide_eq_true hmay
      exact ⟨c, rfl, h.frame rfl (fun _ _ => rfl) rfl (fun habs => absurd habs hthere) rfl h.labelled
        h.uncreated id⟩
  | finish i => exact h.finish hmay

end Tracks

/-! ## runs -/

/-- Events one after the other. -/
theorem Tracks.run (malloc : Malloc Nat Creator) {k : LabelKernel} {o : Owners} (hmac : k.mac = o.mac)
    (h : Tracks k.mac k.creators o.owner) (evs : List LabelEvent) :
    ∃ k', k.run malloc evs = .ok (k', (o.run evs).2) ∧ k'.mac = (o.run evs).1.mac ∧
      Tracks k'.mac k'.creators (o.run evs).1.owner := by
  induction evs generalizing k o with
  | nil => exact ⟨k, rfl, hmac, h⟩
  | cons ev evs ih =>
      obtain ⟨k₁, hstep, hmac₁, h₁⟩ : ∃ k₁, k.step malloc ev = .ok (k₁, (o.step ev).2) ∧
          k₁.mac = (o.step ev).1.mac ∧ Tracks k₁.mac k₁.creators (o.step ev).1.owner := by
        rw [LabelKernel.step, Owners.step, ← hmac]
        by_cases hmay : k.mac.may ev
        · obtain ⟨c', hc', h'⟩ : ∃ c', k.creators.step malloc k.mac ev = _ ∧ _ := h.event hmay
          rw [if_pos hmay, if_pos hmay, hc']
          exact ⟨⟨k.mac.next ev, c'⟩, rfl, rfl, h'⟩
        · rw [if_neg hmay, if_neg hmay]
          exact ⟨k, rfl, hmac, h⟩
      obtain ⟨k', hrun, hend⟩ := ih hmac₁ h₁
      refine ⟨k', ?_, hend⟩
      rw [LabelKernel.run, hstep]
      simp only [hrun, Owners.run]

/-- **Nothing is read after it was freed, and what is read is the creator.**  In every run of
the kernel, with the module loaded and unloaded at any time, with sockets older and younger
than the module, and wherever the allocator puts a record: no record is touched after it was
freed, none is freed twice or taken off a list it is not on, none is left when the module is
gone, and each call takes the process that created its socket under this module for its
creator, and nobody if there is none. -/
theorem creators_sound (malloc : Malloc Nat Creator) (evs : List LabelEvent) :
    ∃ k, LabelKernel.run malloc {} evs = .ok (k, (Owners.run {} evs).2) := by
  obtain ⟨k, hrun, -⟩ := Tracks.run malloc (k := {}) (o := {}) rfl .fresh evs
  exact ⟨k, hrun⟩

/-- **A record for each socket, and a socket for each record.**  As long as the module is
registered, the records that are allocated are those of the sockets it knows a creator of,
each on the list once and in one label, and each of these sockets is there and has its
record; without the module there is none. -/
theorem creators_conserved (malloc : Malloc Nat Creator) (evs : List LabelEvent) :
    ∃ k seen, LabelKernel.run malloc {} evs = .ok (k, seen) ∧
      (k.mac.phase.isRegistered → ∀ p v, k.creators.ledger.heap.lookup p = some v ↔
        ∃! s, k.creators.held k.mac.phase s = some p ∧
          ((Owners.run {} evs).1.owner s).map CurProc.creator = some v) ∧
      (∀ s p, (Owners.run {} evs).1.owner s = some p → (k.mac.socks s).isSome ∧
        ∃ info, k.creators.held k.mac.phase s = some info ∧
          k.creators.ledger.heap.lookup info = some p.creator) ∧
      k.creators.ledger.all.Nodup ∧ k.creators.ledger.all.Perm k.creators.ledger.heap.keys ∧
      (k.mac.phase = .absent → k.creators.ledger = .empty) := by
  obtain ⟨k, hrun, -, ht⟩ := Tracks.run malloc (k := {}) (o := {}) rfl .fresh evs
  refine ⟨k, _, hrun, fun hreg p v => ⟨fun hp => ?_, ?_⟩, fun s p => ht.has_record,
    ht.custody.listed.nodup, ht.custody.listed, fun habs => (ht.absent habs).1⟩
  · have hmem : p ∈ k.creators.ledger.all :=
      ht.custody.listed.mem_heap.mp (AList.lookup_isSome.mp (by rw [hp]; rfl))
    obtain ⟨s, hs⟩ := ht.covered hreg p hmem
    refine ⟨s, ⟨hs, ?_⟩, fun s' hs' => ht.custody.single s' s p hs'.1 hs⟩
    have hvalue := congrFun ht.owner s
    rw [Ledger.holding, hs, Option.bind_some, hp] at hvalue
    exact hvalue.symm
  · rintro ⟨s, ⟨hs, hv⟩, -⟩
    have hvalue := congrFun ht.owner s
    rw [Ledger.holding, hs, Option.bind_some] at hvalue
    exact hvalue.trans hv

end Pfsnitch
