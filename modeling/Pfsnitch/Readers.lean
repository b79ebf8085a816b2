import Pfsnitch.Kernel.Requests

/-!
# Pfsnitch.Readers

Whoever reads the device is woken when there is something to read, and let go when the module
is unloaded.

In memory each operation is what it is on the queue (`Valid`), so that none touches a request
that was freed; and each wakes those whose waiting it has made needless
(`Cdev.monitor_lawful`).
-/

namespace Pfsnitch

open Lib

/-! ## the queue in memory -/

theorem redeliverIn_eq_self {id : Nat} {reqs : List Req} (h : ∀ r ∈ reqs, r.id ≠ id) :
    KMod.redeliverIn id reqs = reqs := by
  induction reqs with
  | nil => rfl
  | cons r rest ih =>
      rw [KMod.redeliverIn, if_neg (h r List.mem_cons_self),
        ih fun s hs => h s (List.mem_cons_of_mem r hs)]

theorem redeliverIn_append {id : Nat} {front back : List Req} {r : Req}
    (h : ∀ s ∈ front, s.id ≠ id) (hr : r.id = id) :
    KMod.redeliverIn id (front ++ r :: back) = front ++ { r with delivered := false } :: back := by
  induction front with
  | nil => exact if_pos hr
  | cons s front ih =>
      rw [List.cons_append, KMod.redeliverIn, if_neg (h s List.mem_cons_self),
        ih fun t ht => h t (List.mem_cons_of_mem s ht), List.cons_append]

/-- There may be readers, and there is nothing for them. -/
def KMod.Idle (k : KMod) : Prop :=
  k.unloading = false ∧ k.upcallOn = true ∧ ∀ r ∈ k.reqs, r.delivered = true

namespace Requests

variable {m m' : Requests}

/-- Each request is on the queue once, and the queue is sound. -/
structure Valid (m : Requests) : Prop where
  listed : m.ledger.Listed
  sound : m.abs.Sound

theorem reqGc_abs (h : m.ledger.Listed) (now : Nat) :
    ∃ m', m.reqGc now = .ok m' ∧ m'.ledger.Listed ∧ m'.abs = m.abs.reqGc now := by
  obtain ⟨l, hl, hlisted, hcontents⟩ := h.sweep fun r => decide (now - r.born > PFSN_REQ_GCAGE)
  refine ⟨_, by rw [reqGc, hl], hlisted, ?_⟩
  rw [abs, KMod.reqGc, ← h.length_contents, ← hlisted.length_contents, hcontents]
  rfl

theorem upcall_abs (malloc : Malloc Nat Req) (h : m.Valid) (proto : UInt8) (addr : IpAddr)
    (fport : UInt16) (info : PfsnInfo) (nonblock memory : Bool) (now : Nat) :
    ∃ m' woken, m.upcall malloc proto addr fport info nonblock memory now =
        .ok ((m.abs.upcall proto addr fport info nonblock memory now).1, m', woken) ∧
      m'.ledger.Listed ∧ m'.abs = (m.abs.upcall proto addr fport info nonblock memory now).2 ∧
      (woken = false → ∀ r ∈ m'.abs.reqs, r ∈ m.abs.reqs) := by
  unfold upcall KMod.upcall
  extract_lets key swept
  by_cases hpath : info.path = [] ∨ info.path.length ≥ 1024
  · rw [if_pos hpath, if_pos hpath]
    exact ⟨m, false, rfl, h.listed, rfl, fun _ _ hr => hr⟩
  rw [if_neg hpath, if_neg hpath]
  by_cases hunloading : m.unloading = true
  · rw [if_pos hunloading, if_pos (show m.abs.unloading = true from hunloading)]
    exact ⟨m, false, rfl, h.listed, rfl, fun _ _ hr => hr⟩
  rw [if_neg hunloading, if_neg (show ¬ m.abs.unloading = true from hunloading)]
  obtain ⟨hscan, hno⟩ | ⟨as, p, bs, r, hscan, hsplit, hv, hfit, -⟩ :=
    h.listed.scan fun r => decide (r.key = key)
  · have hany : ¬ (m.abs.reqs.any fun r => decide (r.key = key)) = true := by
      rw [List.any_eq_true]
      rintro ⟨r, hr, hkey⟩
      rw [hno r hr] at hkey
      cases hkey
    rw [if_neg hany, hscan]
    by_cases hfull : m.nreq ≥ PFSN_REQ_MAX
    · rw [if_pos (show m.abs.nreq ≥ _ from hfull)]
      exact ⟨m, false, by simp only [if_pos hfull], h.listed, rfl, fun _ _ hr => hr⟩
    · obtain ⟨g, hg, hglisted, hgabs⟩ := reqGc_abs h.listed now
      have hkept : ∀ r ∈ g.abs.reqs, r ∈ m.abs.reqs := by
        rw [hgabs]
        exact fun r hr => (m.abs.reqGc_sublist now).subset hr
      rw [if_neg (show ¬ m.abs.nreq ≥ _ from hfull), show swept = g.abs from hgabs.symm]
      cases memory with
      | false =>
          refine ⟨g, false, by simp only [if_neg hfull, hg]; rfl, hglisted, rfl, fun _ => hkept⟩
      | true =>
          refine ⟨_, true, by simp only [if_neg hfull, hg]; rfl, hglisted.add (malloc.fresh _ _) _,
            ?_, fun hw => nomatch hw⟩
          simp only [abs, hglisted.contents_add (malloc.fresh _ _)]
          rfl
  · have hany : (m.abs.reqs.any fun r => decide (r.key = key)) = true := by
      refine List.any_eq_true.mpr ⟨r, ?_, hfit⟩
      rw [show m.abs.reqs = _ from Ledger.Listed.contents_split hsplit hv]
      exact List.mem_append_cons_self
    rw [if_pos hany, hscan]
    exact ⟨m, false, rfl, h.listed, rfl, fun _ _ hr => hr⟩

theorem resolve_abs (h : m.Valid) (id : Nat) (v : KVerdict) (memory : Bool) :
    ∃ m', m.resolve id v memory = .ok m' ∧ m'.ledger.Listed ∧ m'.abs = m.abs.resolve id v memory := by
  obtain ⟨hscan, hno⟩ | ⟨as, p, bs, r, hscan, hsplit, hv, hfit, hfirst⟩ :=
    h.listed.scan fun r => decide (r.id = id)
  · have hfind : m.abs.reqs.find? (fun r => decide (r.id = id)) = none :=
      List.find?_eq_none.mpr fun r hr => by simp [hno r hr]
    refine ⟨m, by rw [resolve, hscan], h.listed, ?_⟩
    rw [KMod.resolve, hfind]
  · have hreqs : m.abs.reqs = m.ledger.values as ++ r :: m.ledger.values bs :=
      Ledger.Listed.contents_split hsplit hv
    have hfind : m.abs.reqs.find? (fun r => decide (r.id = id)) = some r := by
      rw [hreqs]
      exact List.find?_eq_some_iff_append.mpr
        ⟨hfit, _, _, rfl, fun u hu => by simp only [hfirst u hu, Bool.not_false]⟩
    have herase : m.abs.reqs.eraseP (fun r => decide (r.id = id)) =
        m.ledger.values as ++ m.ledger.values bs := by
      rw [hreqs, List.eraseP_append_right _ fun u hu => by simp [hfirst u hu]]
      exact congrArg _ (List.eraseP_cons_of_pos hfit)
    obtain ⟨l, hremove, hlisted, -, -, hcontents⟩ := h.listed.remove_split hsplit
    refine ⟨_, by simp only [resolve, hscan, hremove]; rfl, hlisted, ?_⟩
    simp only [KMod.resolve, hfind, herase, ← hcontents]
    rfl

/-- A reader sleeps when it is served and there is nothing for it. -/
theorem waits_iff (h : m.ledger.Listed) : m.waits = true ↔ m.abs.Idle := by
  unfold waits
  by_cases hstop : (m.unloading || !m.upcallOn) = true
  · rw [if_pos hstop]
    refine ⟨fun hw => absurd hw Bool.false_ne_true, fun hidle => ?_⟩
    obtain ⟨hun, hon, -⟩ := hidle
    rw [show m.unloading = false from hun, show m.upcallOn = true from hon] at hstop
    cases hstop
  · rw [if_neg hstop]
    have hserved : m.unloading = false ∧ m.upcallOn = true := by simpa using hstop
    obtain ⟨hscan, hno⟩ | ⟨as, p, bs, r, hscan, hsplit, hv, hfit, -⟩ := h.scan fun r => !r.delivered
    · rw [hscan]
      exact ⟨fun _ => ⟨hserved.1, hserved.2, fun r hr => by simpa using hno r hr⟩, fun _ => rfl⟩
    · rw [hscan]
      refine ⟨fun hw => absurd hw Bool.false_ne_true, fun hidle => ?_⟩
      obtain ⟨-, -, hall⟩ := hidle
      have hmem : r ∈ m.abs.reqs := by
        rw [show m.abs.reqs = _ from Ledger.Listed.contents_split hsplit hv]
        exact List.mem_append_cons_self
      rw [hall r hmem] at hfit
      cases hfit

/-- What a reader takes that does not sleep. -/
theorem take_abs (h : m.Valid) (hwaits : m.waits = false) :
    ∃ m' r, m.take = .ok (m', r) ∧ m'.ledger.Listed ∧ m'.abs = m.abs.read.2 ∧
      m'.unloading = m.unloading ∧
      m.abs.read.1 = match r with
        | some r => .event r
        | none => .eof := by
  unfold waits at hwaits
  unfold take
  by_cases hstop : (m.unloading || !m.upcallOn) = true
  · have heof : m.abs.read = (.eof, m.abs) :=
      if_pos ((Bool.or_eq_true ..).mp hstop)
    rw [if_pos hstop, heof]
    exact ⟨m, none, rfl, h.listed, rfl, rfl, rfl⟩
  · rw [if_neg hstop] at hwaits
    obtain ⟨hscan, -⟩ | ⟨as, p, bs, r, hscan, hsplit, hv, hfit, hfirst⟩ :=
      h.listed.scan fun r => !r.delivered
    · rw [hscan] at hwaits
      cases hwaits
    · have hreqs : m.abs.reqs = m.ledger.values as ++ r :: m.ledger.values bs :=
        Ledger.Listed.contents_split hsplit hv
      have hfind : m.abs.reqs.find? (fun r => !r.delivered) = some r := by
        rw [hreqs]
        exact List.find?_eq_some_iff_append.mpr
          ⟨hfit, _, _, rfl, fun u hu => by simp only [hfirst u hu, Bool.not_false]⟩
      obtain ⟨l, hwrite, hlisted, hcontents⟩ := h.listed.write hsplit { r with delivered := true }
      have hids := h.sound.nodup_ids
      rw [hreqs, List.map_append, List.map_cons, List.nodup_middle, List.nodup_cons,
        ← List.map_append] at hids
      have hother : ∀ s ∈ m.ledger.values as ++ m.ledger.values bs, s.id ≠ r.id := fun s hs heq =>
        hids.1 (List.mem_map.mpr ⟨s, hs, heq⟩)
      have hmark : (m.abs.reqs.map fun s => if s.id = r.id then { s with delivered := true } else s) =
          l.contents := by
        have hkeep : ∀ rs : List Req, (∀ s ∈ rs, s.id ≠ r.id) →
            (rs.map fun s => if s.id = r.id then { s with delivered := true } else s) = rs := by
          intro rs hrs
          exact (List.map_congr_left fun s hs => if_neg (hrs s hs)).trans (List.map_id' rs)
        rw [hreqs, hcontents, List.map_append, List.map_cons, if_pos rfl,
          hkeep _ fun s hs => hother s (List.mem_append_left _ hs),
          hkeep _ fun s hs => hother s (List.mem_append_right _ hs)]
      have hread : m.abs.read = (.event r, { m.abs with reqs := l.contents }) := by
        have hserved : ¬ (m.abs.unloading = true ∨ (!m.abs.upcallOn) = true) := fun hoff =>
          hstop ((Bool.or_eq_true ..).mpr hoff)
        rw [KMod.read, if_neg hserved, hfind, ← hmark]
      rw [if_neg hstop, hread, hscan]
      exact ⟨{ m with ledger := l }, some r, by simp only [hwrite], hlisted, rfl, rfl, rfl⟩

theorem redeliver_abs (h : m.Valid) (id : Nat) :
    ∃ m' woken, m.redeliver id = .ok (m', woken) ∧ m'.ledger.Listed ∧ m'.abs = m.abs.redeliver id ∧
      (woken = false → m' = m) := by
  obtain ⟨hscan, hno⟩ | ⟨as, p, bs, r, hscan, hsplit, hv, hfit, hfirst⟩ :=
    h.listed.scan fun r => decide (r.id = id)
  · refine ⟨m, false, by rw [redeliver, hscan], h.listed, ?_, fun _ => rfl⟩
    have hself : KMod.redeliverIn id m.abs.reqs = m.abs.reqs :=
      redeliverIn_eq_self fun r hr => of_decide_eq_false (hno r hr)
    rw [KMod.redeliver, hself]
  · obtain ⟨l, hwrite, hlisted, hcontents⟩ := h.listed.write hsplit { r with delivered := false }
    refine ⟨{ m with ledger := l }, true, by simp only [redeliver, hscan, hwrite], hlisted, ?_,
      fun hw => nomatch hw⟩
    rw [KMod.redeliver, show m.abs.reqs = _ from Ledger.Listed.contents_split hsplit hv,
      redeliverIn_append (fun s hs => of_decide_eq_false (hfirst s hs)) (of_decide_eq_true hfit),
      ← hcontents]
    rfl

theorem destroy_eq (h : m.ledger.Listed) :
    m.destroy = .ok ({ m with ledger := .empty, unloading := true, nreq := 0 }, true) := by
  rw [destroy, h.drain]

/-- What every operation sees to: the queue stays in order, readers sleep on only if they
may, and nothing is queued once the module is unloading. -/
structure Keeps (m m' : Requests) (woken : Bool) : Prop where
  valid : m'.Valid
  heeds : woken = false → m.abs.Idle → m'.abs.Idle
  released : m.unloading = true → m.abs.reqs = [] → m'.unloading = true ∧ m'.abs.reqs = []

theorem Valid.keeps_upcall (malloc : Malloc Nat Req) (h : m.Valid) (proto : UInt8) (addr : IpAddr)
    (fport : UInt16) (info : PfsnInfo) (nonblock memory : Bool) (now : Nat) :
    ∃ r m' woken, m.upcall malloc proto addr fport info nonblock memory now = .ok (r, m', woken) ∧
      Keeps m m' woken := by
  obtain ⟨m', woken, hupcall, hlisted, habs, hold⟩ :=
    upcall_abs malloc h proto addr fport info nonblock memory now
  have hstep := m.abs.upcall_step proto addr fport info nonblock memory now
  refine ⟨_, m', woken, hupcall, ⟨hlisted, habs ▸ h.sound.upcallStep hstep⟩, fun hw hidle => ?_,
    fun hunl hnil => ?_⟩
  · have hframe : m'.abs.unloading = m.abs.unloading ∧ m'.abs.upcallOn = m.abs.upcallOn := by
      rw [habs]
      generalize m.abs.upcall proto addr fport info nonblock memory now = r at hstep
      cases hstep <;> exact ⟨rfl, rfl⟩
    exact ⟨hframe.1.trans hidle.1, hframe.2.trans hidle.2.1, fun r hr => hidle.2.2 r (hold hw r hr)⟩
  · have hsame : m'.abs = m.abs := by
      rw [habs, KMod.upcall, if_pos (show m.abs.unloading = true from hunl)]
      split <;> rfl
    exact ⟨(congrArg KMod.unloading hsame).trans hunl, hsame ▸ hnil⟩

theorem Valid.keeps_resolve (h : m.Valid) (id : Nat) (v : KVerdict) (memory : Bool) :
    ∃ m', m.resolve id v memory = .ok m' ∧ Keeps m m' false := by
  obtain ⟨m', hresolve, hlisted, habs⟩ := resolve_abs h id v memory
  have hframe : m'.abs.unloading = m.abs.unloading ∧ m'.abs.upcallOn = m.abs.upcallOn ∧
      ∀ r ∈ m'.abs.reqs, r ∈ m.abs.reqs := by
    rw [habs]
    obtain ⟨-, heq⟩ | ⟨r, -, -, heq⟩ := m.abs.resolve_step id v memory <;> rw [heq]
    · exact ⟨rfl, rfl, fun _ hr => hr⟩
    · exact ⟨rfl, rfl, fun _ hr => List.mem_of_mem_eraseP hr⟩
  refine ⟨m', hresolve, ⟨hlisted, habs ▸ h.sound.resolve id v memory⟩, fun _ hidle => ?_,
    fun hunl hnil => ⟨hframe.1.trans hunl, ?_⟩⟩
  · exact ⟨hframe.1.trans hidle.1, hframe.2.1.trans hidle.2.1,
      fun r hr => hidle.2.2 r (hframe.2.2 r hr)⟩
  · exact List.eq_nil_iff_forall_not_mem.mpr fun r hr => by
      have hold := hframe.2.2 r hr
      rw [hnil] at hold
      cases hold

theorem Valid.keeps_take (h : m.Valid) (hwaits : m.waits = false) :
    ∃ m' r, m.take = .ok (m', r) ∧ Keeps m m' false := by
  obtain ⟨m', r, htake, hlisted, habs, hunl', -⟩ := take_abs h hwaits
  refine ⟨m', r, htake, ⟨hlisted, habs ▸ h.sound.read⟩, fun _ hidle => ?_, fun hunl hnil => ?_⟩
  · rw [(waits_iff h.listed).mpr hidle] at hwaits
    cases hwaits
  · refine ⟨hunl'.trans hunl, ?_⟩
    rw [habs, show m.abs.read = (.eof, m.abs) from if_pos (.inl hunl)]
    exact hnil

theorem Valid.keeps_redeliver (h : m.Valid) (id : Nat) :
    ∃ m' woken, m.redeliver id = .ok (m', woken) ∧ Keeps m m' woken := by
  obtain ⟨m', woken, hre, hlisted, habs, hsame⟩ := redeliver_abs h id
  refine ⟨m', woken, hre, ⟨hlisted, habs ▸ h.sound.redeliver id⟩, fun hw hidle => ?_,
    fun hunl hnil => ?_⟩
  · rw [hsame hw]
    exact hidle
  · refine ⟨(congrArg KMod.unloading habs).trans hunl, ?_⟩
    rw [habs, KMod.redeliver, hnil]
    rfl

theorem Valid.keeps_upcallSet (h : m.Valid) (on : Bool) :
    Keeps m (m.upcallSet on).1 (m.upcallSet on).2 where
  valid := ⟨h.listed, h.sound.congr rfl rfl rfl rfl⟩
  heeds hw hidle := ⟨hidle.1, Bool.not_eq_eq_eq_not.mp hw, hidle.2.2⟩
  released hunl hnil := ⟨hunl, hnil⟩

theorem Valid.keeps_devClose (h : m.Valid) : Keeps m m.devClose.1 m.devClose.2 := by
  unfold devClose
  split
  · exact ⟨⟨h.listed, h.sound.congr rfl rfl rfl rfl⟩, (fun hw => nomatch hw),
      fun hunl hnil => ⟨hunl, hnil⟩⟩
  · exact ⟨h, fun _ hidle => hidle, fun hunl hnil => ⟨hunl, hnil⟩⟩

theorem Valid.keeps_destroy (h : m.Valid) :
    ∃ m', m.destroy = .ok (m', true) ∧ Keeps m m' true ∧ m'.unloading = true ∧ m'.abs.reqs = [] :=
  ⟨_, destroy_eq h.listed,
    ⟨⟨.empty, KMod.sound_fresh rfl rfl⟩, (fun hw => nomatch hw), fun _ _ => ⟨rfl, rfl⟩⟩, rfl, rfl⟩

end Requests

/-! ## the device -/

namespace Cdev

variable {malloc : Malloc Nat Req} {d d' : Cdev} {m m' : Requests} {woken alone : Bool}

/-- Nothing has gone wrong with the memory, and once the readers are released nothing is
queued. -/
def Inv (d : Cdev) : Prop :=
  ∃ m, d.mem = .ok m ∧ m.Valid ∧ (d.phase ≠ .loaded → m.unloading = true ∧ m.abs.reqs = [])

theorem locked_eq {β : Type} {f : Requests → Except Fault (Requests × β)} {b e : β}
    (hthere : d.phase ≠ .gone) (hmem : d.mem = .ok m) (hf : f m = .ok (m', b)) :
    d.locked f e = ({ d with mem := .ok m' }, b) := by
  rw [locked, if_neg hthere, hmem]
  simp only [hf]

theorem locked_phase {β : Type} (d : Cdev) (f : Requests → Except Fault (Requests × β)) (e : β) :
    (d.locked f e).1.phase = d.phase := by
  unfold locked
  repeat' split
  all_goals rfl

/-- `pfsn_destroy` goes one step at a time, and the last one when nobody is inside. -/
theorem section_phase (hsection : (monitor malloc).Section d d' woken alone) :
    d'.phase = d.phase ∨ d.phase = .loaded ∧ d'.phase = .released ∨
      d.phase = .released ∧ d'.phase = .waiting ∨
      d.phase = .waiting ∧ d'.phase = .gone ∧ alone = true := by
  cases hsection with
  | take => exact .inl (locked_phase _ _ _)
  | finish r =>
      cases r with
      | none => exact .inl rfl
      | some r => exact .inl (locked_phase _ _ _)
  | @act a d' woken hact =>
      change d.act malloc a = some (d', woken) at hact
      have hlocked : ∀ f, some (d.locked f false) = some (d', woken) → d'.phase = d.phase := by
        intro f hf
        have hd' : (d.locked f false).1 = d' := congrArg Prod.fst (Option.some.inj hf)
        rw [← hd', locked_phase]
      cases a <;> rw [act] at hact <;> split at hact
      case upcall.isTrue => exact .inl (hlocked _ hact)
      case resolve.isFalse | upcallSet.isFalse | close.isFalse => exact .inl (hlocked _ hact)
      case verdicts.isFalse | setFailmode.isFalse | wait.isFalse =>
        obtain ⟨rfl, rfl⟩ := Prod.mk.inj (Option.some.inj hact)
        exact .inl rfl
      case release.isTrue hloaded =>
        obtain ⟨rfl, rfl⟩ := Prod.mk.inj (Option.some.inj hact)
        exact .inr (.inl ⟨hloaded, rfl⟩)
      case destroyDev.isTrue hreleased =>
        obtain ⟨rfl, rfl⟩ := Prod.mk.inj (Option.some.inj hact)
        exact .inr (.inr (.inl ⟨hreleased, rfl⟩))
      case destroyMtx.isTrue hwaiting =>
        obtain ⟨rfl, rfl⟩ := Prod.mk.inj (Option.some.inj hact)
        exact .inr (.inr (.inr ⟨hwaiting, rfl, rfl⟩))
      all_goals cases hact

/-- A thread waits as the queue says, as long as the memory is sound. -/
theorem waits_eq (hmem : d.mem = .ok m) : (monitor malloc).waits d = m.waits := by
  simp only [monitor, hmem]

/-- What happens under the mutex before it goes away. -/
theorem section_keeps (hinv : d.Inv) (hthere : d.phase ≠ .gone)
    (hsection : (monitor malloc).Section d d' woken alone) :
    ∃ m m', d.mem = .ok m ∧ d'.mem = .ok m' ∧ Requests.Keeps m m' woken ∧
      (d.phase = .loaded → d'.phase ≠ .loaded → m'.unloading = true ∧ m'.abs.reqs = []) := by
  obtain ⟨m, hmem, hvalid, -⟩ := hinv
  have hself : Requests.Keeps m m false := ⟨hvalid, fun _ hidle => hidle, fun hunl hnil => ⟨hunl, hnil⟩⟩
  cases hsection with
  | take hwaits =>
      have hwaits : m.waits = false := by
        rwa [waits_eq hmem] at hwaits
      obtain ⟨m', r, htake, hkeeps⟩ := hvalid.keeps_take hwaits
      have hd' : ((monitor malloc).take d).1 = { d with mem := .ok m' } :=
        congrArg Prod.fst (locked_eq hthere hmem htake)
      rw [hd']
      exact ⟨m, m', hmem, rfl, hkeeps, fun h hnot => absurd h hnot⟩
  | finish r =>
      cases r with
      | none => exact ⟨m, m, hmem, hmem, hself, fun h hnot => absurd h hnot⟩
      | some r =>
          obtain ⟨m', w, hre, hkeeps⟩ := hvalid.keeps_redeliver r.id
          have hd' : (monitor malloc).finish (some r) d = ({ d with mem := .ok m' }, w) :=
            locked_eq hthere hmem hre
          rw [hd']
          exact ⟨m, m', hmem, rfl, hkeeps, fun h hnot => absurd h hnot⟩
  | @act a d' woken hact =>
      change d.act malloc a = some (d', woken) at hact
      cases a with
      | upcall proto addr fport info nonblock memory =>
          rw [act] at hact
          split at hact
          · obtain ⟨r, m', w, hup, hkeeps⟩ :=
              hvalid.keeps_upcall malloc proto addr fport info nonblock memory d.now
            rw [locked_eq hthere hmem (by rw [hup]; rfl)] at hact
            obtain ⟨rfl, rfl⟩ := Prod.mk.inj (Option.some.inj hact)
            exact ⟨m, m', hmem, rfl, hkeeps, fun h hnot => absurd h hnot⟩
          · cases hact
      | resolve id v memory =>
          obtain ⟨m', hres, hkeeps⟩ := hvalid.keeps_resolve id v memory
          rw [act, if_neg hthere, locked_eq hthere hmem (by rw [hres]; rfl)] at hact
          obtain ⟨rfl, rfl⟩ := Prod.mk.inj (Option.some.inj hact)
          exact ⟨m, m', hmem, rfl, hkeeps, fun h hnot => absurd h hnot⟩
      | upcallSet on =>
          rw [act, if_neg hthere, locked_eq hthere hmem rfl] at hact
          obtain ⟨rfl, rfl⟩ := Prod.mk.inj (Option.some.inj hact)
          exact ⟨m, _, hmem, rfl, hvalid.keeps_upcallSet on,
            fun h hnot => absurd h hnot⟩
      | close =>
          rw [act, if_neg hthere, locked_eq hthere hmem rfl] at hact
          obtain ⟨rfl, rfl⟩ := Prod.mk.inj (Option.some.inj hact)
          exact ⟨m, _, hmem, rfl, hvalid.keeps_devClose, fun h hnot => absurd h hnot⟩
      | verdicts cache | setFailmode failmode =>
          rw [act, if_neg hthere, hmem] at hact
          obtain ⟨rfl, rfl⟩ := Prod.mk.inj (Option.some.inj hact)
          exact ⟨m, _, hmem, rfl,
            ⟨⟨hvalid.listed, hvalid.sound.congr rfl rfl rfl rfl⟩, fun _ hidle => hidle,
              fun hunl hnil => ⟨hunl, hnil⟩⟩, fun h hnot => absurd h hnot⟩
      | wait secs =>
          rw [act, if_neg hthere] at hact
          obtain ⟨rfl, rfl⟩ := Prod.mk.inj (Option.some.inj hact)
          exact ⟨m, m, hmem, hmem, hself, fun h hnot => absurd h hnot⟩
      | release =>
          rw [act] at hact
          split at hact
          · obtain ⟨m', hdestroy, hkeeps, hunl, hnil⟩ := hvalid.keeps_destroy
            simp only [locked_eq hthere hmem hdestroy] at hact
            obtain ⟨rfl, rfl⟩ := Prod.mk.inj (Option.some.inj hact)
            exact ⟨m, m', hmem, rfl, hkeeps, fun _ _ => ⟨hunl, hnil⟩⟩
          · cases hact
      | destroyDev =>
          rw [act] at hact
          split at hact
          · rename_i hreleased
            obtain ⟨rfl, rfl⟩ := Prod.mk.inj (Option.some.inj hact)
            exact ⟨m, m, hmem, hmem, hself, fun h => by rw [hreleased] at h; cases h⟩
          · cases hact
      | destroyMtx =>
          rw [act] at hact
          split at hact
          · rename_i hwaiting
            obtain ⟨rfl, rfl⟩ := Prod.mk.inj (Option.some.inj hact)
            exact ⟨m, m, hmem, hmem, hself, fun h => by rw [hwaiting] at h; cases h⟩
          · cases hact

theorem waits_iff (hmem : d.mem = .ok m) (hvalid : m.Valid) :
    (monitor malloc).waits d = true ↔ m.abs.Idle := by
  rw [waits_eq hmem]
  exact Requests.waits_iff hvalid.listed

/-- The device obeys the rules of monitors. -/
theorem monitor_lawful (malloc : Malloc Nat Req) : (monitor malloc).Lawful Inv where
  inv {d d'} _ _ hinv hgone hsection := by
    obtain ⟨m, m', hmem, hmem', hkeeps, hleaves⟩ :=
      section_keeps hinv (of_decide_eq_false hgone) hsection
    obtain ⟨m₀, hmem₀, -, hreleased⟩ := hinv
    obtain rfl := Except.ok.inj (hmem₀.symm.trans hmem)
    refine ⟨m', hmem', hkeeps.valid, fun hnot => ?_⟩
    by_cases hloaded : d.phase = .loaded
    · exact hleaves hloaded hnot
    · exact hkeeps.released (hreleased hloaded).1 (hreleased hloaded).2
  heeds {d d'} _ hinv hgone hwaits hsection := by
    obtain ⟨m, m', hmem, hmem', hkeeps, -⟩ :=
      section_keeps hinv (of_decide_eq_false hgone) hsection
    obtain ⟨m₀, hmem₀, hvalid, -⟩ := hinv
    obtain rfl := Except.ok.inj (hmem₀.symm.trans hmem)
    exact (waits_iff hmem' hkeeps.valid).mpr (hkeeps.heeds rfl ((waits_iff hmem hvalid).mp hwaits))
  door {d d'} _ _ hsection hdoor := by
    have hshut : ¬ (d.phase = .loaded ∨ d.phase = .released) := of_decide_eq_false hdoor
    refine decide_eq_false fun hopen => hshut ?_
    obtain heq | ⟨heq, -⟩ | ⟨heq, -⟩ | ⟨heq, heq', -⟩ := section_phase hsection
    · exact heq ▸ hopen
    · exact .inl heq
    · exact .inr heq
    · rw [heq'] at hopen
      cases hopen <;> contradiction
  shut {d} hinv hdoor := by
    obtain ⟨m, hmem, hvalid, hreleased⟩ := hinv
    have hlate : d.phase ≠ .loaded := fun h => of_decide_eq_false hdoor (.inl h)
    rw [Bool.eq_false_iff]
    intro hwaits
    have hidle := (waits_iff hmem hvalid).mp hwaits
    have hunl := (hreleased hlate).1
    rw [show m.unloading = false from hidle.1] at hunl
    cases hunl
  gone {d d'} _ hsection hgone := by
    refine decide_eq_false fun hgone' => of_decide_eq_false hgone ?_
    obtain heq | ⟨-, heq⟩ | ⟨-, heq⟩ | ⟨-, -, hnot⟩ := section_phase hsection
    · exact heq ▸ hgone'
    · rw [heq] at hgone'; cases hgone'
    · rw [heq] at hgone'; cases hgone'
    · cases hnot
  closed {d} hgone := by
    have hphase : d.phase = .gone := of_decide_eq_true hgone
    exact decide_eq_false (by rw [hphase]; simp)
  inert {d a} hgone := by
    have hphase : d.phase = .gone := of_decide_eq_true hgone
    change d.act malloc a = none
    cases a <;> simp [act, hphase]

/-- A module that has just been loaded, and nobody reads. -/
def start (malloc : Malloc Nat Req) (m : FailMode) (now : Nat) : (monitor malloc).State :=
  ⟨fresh m now, []⟩

theorem sound_start (malloc : Malloc Nat Req) (m : FailMode) (now : Nat) :
    Monitor.Sound (monitor malloc) Inv (start malloc m now) where
  inv := ⟨_, rfl, ⟨.empty, KMod.sound_fresh rfl rfl⟩, fun h => absurd rfl h⟩
  sleepers h := nomatch h
  gone h := nomatch h

/-! ## runs -/

/-- **No reader is left asleep.**  However many threads read the device, in whatever order they,
the hooks, the answers of the daemon and the unloading of the module come, wherever the
allocator puts a request and whichever copies to a reader fail: no request is touched after it
was freed, the queue is sound, and a thread sleeps in `pfsn_read` only while the module serves
a reader and every request in the queue has been handed out. -/
theorem no_reader_left_asleep (malloc : Malloc Nat Req) (m : FailMode) (now : Nat)
    {st : (monitor malloc).State}
    (hrun : Run (monitor malloc).step (fun _ _ => True) (start malloc m now) st) :
    ∃ mem, st.shared.mem = .ok mem ∧ mem.ledger.Listed ∧ mem.abs.Sound ∧
      (.asleep ∈ st.threads → mem.unloading = false ∧ mem.upcallOn = true ∧
        ∀ r ∈ mem.ledger.contents, r.delivered = true) := by
  have hsound := (sound_start malloc m now).run (monitor_lawful malloc) hrun
  obtain ⟨mem, hmem, hvalid, -⟩ := hsound.inv
  exact ⟨mem, hmem, hvalid.listed, hvalid.sound,
    fun hasleep => (waits_iff hmem hvalid).mp (hsound.sleepers hasleep)⟩

/-- Two readers: the first is woken for a miss and copies it out, the second goes to sleep. -/
theorem no_reader_left_asleep_two :
    ∃ (st : (monitor .bump).State) (mem : Requests), st.shared.mem = .ok mem ∧
      .asleep ∈ st.threads ∧ mem.ledger.contents ≠ [] ∧
      ∀ r ∈ mem.ledger.contents, r.delivered = true := by
  have hexec : (exec (monitor .bump).step (fun _ _ => True) (start .bump .fopen 0)
      [.act (.upcallSet true), .enter, .test 0,
        .act (.upcall 17 (.v4 ⟨1, 1, 1, 1⟩) 53 ⟨7, 0, [47, 97]⟩ false true), .test 0, .enter,
        .test 1]).any (fun st => decide (.asleep ∈ st.threads) &&
          st.shared.mem.toOption.any (·.nreq != 0)) = true := by decide
  obtain ⟨st, hrun, hst⟩ := exists_run_of_exec hexec
  obtain ⟨mem, hmem, hlisted, hsound, hidle⟩ :=
    no_reader_left_asleep .bump .fopen 0 (hrun.mono fun _ _ _ => trivial)
  rw [hmem, Bool.and_eq_true, decide_eq_true_eq, Except.toOption, Option.any_some,
    bne_iff_ne] at hst
  refine ⟨st, mem, hmem, hst.1, fun hnil => hst.2 ?_, (hidle hst.1).2.2⟩
  rw [show mem.nreq = _ from hsound.count, show mem.abs.reqs = [] from hnil, List.length_nil]

/-- **The module can always be unloaded.**  When `pfsn_destroy` waits in `destroy_dev`, with
whatever threads inside, then in whatever happens after: the threads take, all together, two
steps at most for each of them, no one sleeps, as long as one is inside one can take a step,
and when none is the mutex can go.  All requests are freed then. -/
theorem unload_ends (malloc : Malloc Nat Req) (m : FailMode) (now : Nat)
    {st st' : (monitor malloc).State}
    (hrun : Run (monitor malloc).step (fun _ _ => True) (start malloc m now) st)
    (hwaiting : st.shared.phase = .waiting) {es : List (Monitor.Event CdevAct)}
    (hthen : exec (monitor malloc).step (fun _ _ => True) st es = some st') :
    es.countP Monitor.Event.byThread ≤ 2 * st.threads.length ∧ .asleep ∉ st'.threads ∧
      ((∃ t ∈ st'.threads, t ≠ .out) →
        ∃ e : Monitor.Event CdevAct, e.byThread ∧ ((monitor malloc).step st' e).isSome) ∧
      ((∀ t ∈ st'.threads, t = .out) →
        st'.shared.phase = .gone ∨ ((monitor malloc).step st' (.act .destroyMtx)).isSome) ∧
      ∃ mem, st'.shared.mem = .ok mem ∧ mem.ledger = .empty := by
  have hlawful := monitor_lawful malloc
  have hsound := (sound_start malloc m now).run hlawful hrun
  have hdoor : (monitor malloc).door st.shared = false := decide_eq_false (by rw [hwaiting]; simp)
  obtain ⟨hdoor', hsound', hsteps⟩ := hsound.steps_left hlawful hdoor hthen
  have hshut : ¬ (st'.shared.phase = .loaded ∨ st'.shared.phase = .released) :=
    of_decide_eq_false hdoor'
  obtain ⟨mem, hmem, hvalid, hreleased⟩ := hsound'.inv
  refine ⟨?_, hsound'.none_asleep hlawful hdoor', hsound'.moves hlawful hdoor', fun hout => ?_, mem, hmem,
    hvalid.listed.eq_empty (hreleased fun h => hshut (.inl h)).2⟩
  · have hfew := Monitor.stepsLeft_le (hsound.none_asleep hlawful hdoor)
    omega
  · cases hphase : st'.shared.phase with
    | gone => exact .inl rfl
    | loaded => exact absurd (.inl hphase) hshut
    | released => exact absurd (.inr hphase) hshut
    | waiting =>
        right
        have hall : st'.threads.all Thread.isOut = true :=
          List.all_eq_true.mpr fun t ht => by rw [hout t ht]; rfl
        rw [Monitor.step, hall, Bool.not_true, Bool.and_false, if_neg Bool.false_ne_true]
        change (Option.map _ (st'.shared.act malloc .destroyMtx)).isSome = true
        rw [act, if_pos hphase]
        rfl

/-- A sleeper is released, and the module goes. -/
theorem unload_ends_sleeper :
    ∃ st st' : (monitor .bump).State, st.shared.phase = .waiting ∧
      exec (monitor .bump).step (fun _ _ => True) st [.test 0, .leave 0, .act .destroyMtx] = some st' ∧
      st'.shared.phase = .gone ∧ ∃ mem, st'.shared.mem = .ok mem ∧ mem.ledger = .empty := by
  have hexec : (exec (monitor .bump).step (fun _ _ => True) (start .bump .fopen 0)
      [.act (.upcallSet true), .enter, .test 0, .act .release, .act .destroyDev]).any
        (fun st => decide (st.shared.phase = .waiting) &&
          (exec (monitor .bump).step (fun _ _ => True) st [.test 0, .leave 0, .act .destroyMtx]).any
            fun st' => decide (st'.shared.phase = .gone)) = true := by decide
  obtain ⟨st, hrun, hst⟩ := exists_run_of_exec hexec
  rw [Bool.and_eq_true, decide_eq_true_eq] at hst
  obtain ⟨st', hthen, hgone⟩ := (Option.any_eq_true _ _).mp hst.2
  exact ⟨st, st', hst.1, hthen, of_decide_eq_true hgone,
    (unload_ends .bump .fopen 0 (hrun.mono fun _ _ _ => trivial) hst.1 hthen).2.2.2.2⟩

end Cdev

end Pfsnitch
