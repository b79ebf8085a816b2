import Pfsnitch.Abi

/-!
# Pfsnitch.Wire

The compiled device at work, and the module it stands for.
-/

namespace Pfsnitch

open Lib

/-! ## the compiled device -/

/-- The device: the module's variables, the events that are being copied out, and the clock
in seconds. -/
structure RawDev where
  kmod : RawMod
  copying : List (UInt64 × List UInt8)
  now : Nat

/-- What can happen to it.  `stack` is what lies on the hook's stack, `lookup` is
`pfsn_lookup` at that moment. -/
inductive RawEvent where
  | hook (so : RawSocket) (sa : SockAddr) (stack : Faddr) (memory : Bool)
  | ioctl (lookup : PfsnitchAttr → PfsnitchAttr) (cmd : UInt64) (user : List UInt8) (memory : Bool)
  | read (resid : Nat)
  /-- The `i`-th copy ends. -/
  | copied (i : Nat) (fault : Bool)
  | close
  /-- `sysctl security.mac.pfsnitch.failmode`. -/
  | setFailmode (m : Int32)
  | wait (secs : Nat)

/-- What a process sees of it. -/
inductive RawOutcome where
  | hook (r : HookResult)
  | ioctl (r : Except Errno (List UInt8))
  | read (r : Except Errno (List UInt8))
  | quiet

namespace RawDev

/-- A module that has just been loaded. -/
def fresh (m : Int32) (now : Nat) : RawDev := ⟨{ failmode := m }, [], now⟩

/-- One event.  A read with nothing to hand out sleeps, and a read that was woken is a new
one. -/
def step (q : RawDev) : RawEvent → RawDev × RawOutcome
  | .hook so sa stack memory =>
    let (r, k) := q.kmod.checkConnect so sa stack memory q.now
    ({ q with kmod := k }, .hook r)
  | .ioctl lookup cmd user memory =>
    match q.kmod.sysIoctl lookup cmd user memory with
    | .ok (k, out) => ({ q with kmod := k }, .ioctl (.ok out))
    | .error e => (q, .ioctl (.error e))
  | .read resid =>
    match q.kmod.read resid with
    | (.einval, k) => ({ q with kmod := k }, .read (.error .einval))
    | (.eof, k) => ({ q with kmod := k }, .read (.ok []))
    | (.event id bytes, k) => ({ q with kmod := k, copying := q.copying ++ [(id, bytes)] }, .quiet)
    | (.wait, k) => ({ q with kmod := k }, .quiet)
  | .copied i fault =>
    match q.copying[i]? with
    | some (id, bytes) =>
      let copying := q.copying.eraseIdx i
      if fault then ({ q with kmod := q.kmod.redeliver id, copying }, .read (.error .efault))
      else ({ q with copying }, .read (.ok bytes))
    | none => (q, .quiet)
  | .close => ({ q with kmod := q.kmod.devClose }, .quiet)
  | .setFailmode m => ({ q with kmod := { q.kmod with failmode := m } }, .quiet)
  | .wait secs => ({ q with now := q.now + secs }, .quiet)

/-- Events one after the other. -/
def run (q : RawDev) : List RawEvent → RawDev × List RawOutcome
  | [] => (q, [])
  | ev :: evs =>
    let (q, o) := q.step ev
    let (q, os) := run q evs
    (q, o :: os)

end RawDev

/-! ## the module it stands for -/

/-- What an ioctl asks of the module. -/
inductive Request where
  | push (proto : UInt8) (addr : IpAddr) (fport : UInt16) (v : KVerdict) (path : List UInt8)
  | flush
  | resolve (id : Nat) (v : KVerdict)
  | upcallSet (on : Bool)
  | query
deriving DecidableEq

/-- The verdict a byte of the ABI stands for. -/
def KVerdict.ofByte (b : UInt8) : Option KVerdict :=
  if b = PFSNITCH_V_ALLOW then some .allow
  else if b = PFSNITCH_V_DENY then some .deny
  else none

/-- Are these the family and the protocol of a flow that the module knows about? -/
def Recognised (af proto : UInt8) : Prop :=
  (af = 4 ∨ af = 6) ∧ (proto = IPPROTO_TCP ∨ proto = IPPROTO_UDP)

instance (af proto : UInt8) : Decidable (Recognised af proto) := inferInstanceAs (Decidable (_ ∧ _))

/-- The meaning of an ioctl's argument. -/
def Request.ofData (cmd : UInt64) (data : List UInt8) : Except Errno Request :=
  if cmd = PFSNITCH_VERDICT_PUSH then
    let pv := PfsnitchVerdict.ofData data
    match KVerdict.ofByte pv.verdict with
    | some v =>
      if pv.version = PFSNITCH_ATTR_VERSION ∧ Recognised pv.af pv.proto then
        .ok (.push pv.proto (addrOf pv.af pv.faddr) (ntohs pv.fport) v pv.path.1)
      else .error .einval
    | none => .error .einval
  else if cmd = PFSNITCH_VERDICT_FLUSH then .ok .flush
  else if cmd = PFSNITCH_RESOLVE then
    let pr := PfsnitchResolve.ofData data
    match KVerdict.ofByte pr.verdict with
    | some v =>
      if pr.version = PFSNITCH_ATTR_VERSION then .ok (.resolve pr.id.toNat v) else .error .einval
    | none => .error .einval
  else if cmd = PFSNITCH_UPCALL_SET then .ok (.upcallSet (CType.i32.get data ≠ (0 : Int32)))
  else if cmd = PFSNITCH_ATTR_QUERY then
    let q := PfsnitchAttr.ofData data
    if q.version = PFSNITCH_ATTR_VERSION ∧ Recognised q.af q.proto then .ok .query else .error .einval
  else .error .enotty

/-- The meaning of an ioctl. -/
def Request.ofIoctl (cmd : UInt64) (user : List UInt8) : Except Errno Request :=
  if user.length < iocparmLen cmd then .error .efault
  else Request.ofData cmd (user.take (iocparmLen cmd))

/-- The module carries a request out. -/
def KMod.request (k : KMod) (req : Request) (memory : Bool) : KMod :=
  match req with
  | .push proto addr fport v path => k.verdictPush proto addr fport v path memory
  | .flush => k.verdictFlush
  | .resolve id v => k.resolve id v memory
  | .upcallSet on => k.upcallSet on
  | .query => k

/-- The module, the requests whose events are being copied out, and the clock. -/
structure Dev where
  kmod : KMod
  copying : List Req
  now : Nat

/-- What can happen to it. -/
inductive DevEvent where
  | hook (so : Socket) (sa : SockAddr) (memory : Bool)
  | ioctl (req : Except Errno Request) (memory : Bool)
  | shortRead
  | read
  | copied (i : Nat) (fault : Bool)
  | close
  | setFailmode (m : FailMode)
  | wait (secs : Nat)

/-- What is seen of it. -/
inductive DevOutcome where
  | hook (r : HookResult)
  | done
  | refused (e : Errno)
  | failed (e : Errno)
  | eof
  | event (r : Req)
  | quiet
deriving DecidableEq

namespace Dev

def fresh (m : FailMode) (now : Nat) : Dev := ⟨{ failmode := m }, [], now⟩

def step (d : Dev) : DevEvent → Dev × DevOutcome
  | .hook so sa memory =>
    let (r, k) := d.kmod.checkConnect so sa memory d.now
    ({ d with kmod := k }, .hook r)
  | .ioctl (.ok req) memory => ({ d with kmod := d.kmod.request req memory }, .done)
  | .ioctl (.error e) _ => (d, .refused e)
  | .shortRead => (d, .failed .einval)
  | .read =>
    match d.kmod.read with
    | (.eof, k) => ({ d with kmod := k }, .eof)
    | (.event r, k) => ({ d with kmod := k, copying := d.copying ++ [r] }, .quiet)
    | (.wait, k) => ({ d with kmod := k }, .quiet)
  | .copied i fault =>
    match d.copying[i]? with
    | some r =>
      let copying := d.copying.eraseIdx i
      if fault then ({ d with kmod := d.kmod.redeliver r.id, copying }, .failed .efault)
      else ({ d with copying }, .event r)
    | none => (d, .quiet)
  | .close => ({ d with kmod := d.kmod.devClose }, .quiet)
  | .setFailmode m => ({ d with kmod := { d.kmod with failmode := m } }, .quiet)
  | .wait secs => ({ d with now := d.now + secs }, .quiet)

def run (d : Dev) : List DevEvent → Dev × List DevOutcome
  | [] => (d, [])
  | ev :: evs =>
    let (d, o) := d.step ev
    let (d, os) := run d evs
    (d, o :: os)

end Dev

/-- What an event of the compiled device means. -/
def RawEvent.abs : RawEvent → DevEvent
  | .hook so sa _ memory => .hook so.abs sa.host memory
  | .ioctl _ cmd user memory => .ioctl (Request.ofIoctl cmd user) memory
  | .read resid => if resid < Struct.size eventLayout then .shortRead else .read
  | .copied i fault => .copied i fault
  | .close => .close
  | .setFailmode m => .setFailmode (if m = 1 then .fclosed else .fopen)
  | .wait secs => .wait secs

/-- What is seen of the compiled device is what is seen of the module. -/
inductive Shows : RawOutcome → DevOutcome → Prop
  | hook (r : HookResult) : Shows (.hook r) (.hook r)
  | done (out : List UInt8) : Shows (.ioctl (.ok out)) .done
  | refused (e : Errno) : Shows (.ioctl (.error e)) (.refused e)
  | failed (e : Errno) : Shows (.read (.error e)) (.failed e)
  | eof : Shows (.read (.ok [])) .eof
  | event {r : RawReq} {q : Req} (h : r.abs = q) : Shows (.read (.ok (RawMod.event r))) (.event q)
  | quiet : Shows .quiet .quiet

/-- An event that is being copied out. -/
def Copies (c : UInt64 × List UInt8) (r : Req) : Prop :=
  ∃ q : RawReq, q.abs = r ∧ c = (q.id, RawMod.event q)

/-- The compiled device stands for the module. -/
structure Stands (q : RawDev) (d : Dev) : Prop where
  valid : q.kmod.vtab.Valid
  sound : d.kmod.Sound
  kmod : q.kmod.abs = d.kmod
  copying : List.Forall₂ Copies q.copying d.copying
  now : q.now = d.now

/-! ## ioctls -/

theorem KVerdict.ofByte_eq_some {b : UInt8} {v : KVerdict} (h : KVerdict.ofByte b = some v) :
    (b = PFSNITCH_V_ALLOW ∨ b = PFSNITCH_V_DENY) ∧ kverdictOf b = v := by
  unfold ofByte at h
  split_ifs at h with hallow hdeny
  · exact ⟨.inl hallow, by rw [kverdictOf, if_pos hallow]; exact Option.some.inj h⟩
  · exact ⟨.inr hdeny, by rw [kverdictOf, if_neg hallow]; exact Option.some.inj h⟩

theorem KVerdict.ofByte_eq_none {b : UInt8} (h : KVerdict.ofByte b = none) :
    b ≠ PFSNITCH_V_ALLOW ∧ b ≠ PFSNITCH_V_DENY := by
  unfold ofByte at h
  split_ifs at h with hallow hdeny
  exact ⟨hallow, hdeny⟩

namespace RawMod

variable {k : RawMod} {memory : Bool}

/-- The entries a push files are as the module makes them. -/
theorem valid_verdictPush (hv : k.vtab.Valid) {pv : PfsnitchVerdict} (haf : pv.af = 4 ∨ pv.af = 6)
    (hverdict : pv.verdict = PFSNITCH_V_ALLOW ∨ pv.verdict = PFSNITCH_V_DENY) :
    (k.verdictPush pv memory).vtab.Valid := by
  rw [verdictPush]
  split_ifs with hpath
  · exact hv
  · have hsize := pv.path.2
    exact Vtab.valid_cacheInsert hv haf (counted_of_lt (by omega)) hverdict (by omega)

theorem valid_resolve (hv : k.vtab.Valid) (id : UInt64) {verdict : UInt8}
    (hverdict : verdict = PFSNITCH_V_ALLOW ∨ verdict = PFSNITCH_V_DENY) :
    (k.resolve id verdict memory).vtab.Valid := by
  rw [resolve]
  split
  · rename_i r _
    exact Vtab.valid_cacheInsert hv r.family r.counted_path hverdict (r.counted ▸ r.fits)
  · exact hv

/-- What an ioctl does: it is refused, or carries out the request that its argument means. -/
inductive Ioctls (k : RawMod) (cmd : UInt64) (data : List UInt8) (memory : Bool) :
    Except Errno (RawMod × List UInt8) → Prop
  | refused {e : Errno} (h : Request.ofData cmd data = .error e) : Ioctls k cmd data memory (.error e)
  | done {req : Request} {k' : RawMod} {out : List UInt8} (h : Request.ofData cmd data = .ok req)
      (hv : k'.vtab.Valid) (habs : k'.abs = k.abs.request req memory) :
      Ioctls k cmd data memory (.ok (k', out))

/-- Whatever bytes it is given. -/
theorem ioctl_spec (hv : k.vtab.Valid) (lookup : PfsnitchAttr → PfsnitchAttr) (cmd : UInt64)
    (data : List UInt8) : Ioctls k cmd data memory (k.ioctl lookup cmd data memory) := by
  unfold ioctl
  by_cases hpush : cmd = PFSNITCH_VERDICT_PUSH
  · rw [if_pos hpush]
    extract_lets pv
    have hdata : Request.ofData cmd data = _ := if_pos hpush
    extract_lets at hdata
    cases hverdict : KVerdict.ofByte pv.verdict with
    | none =>
        have hno := KVerdict.ofByte_eq_none hverdict
        rw [hverdict] at hdata
        split_ifs
        all_goals exact .refused hdata
    | some v =>
        obtain ⟨hsettled, rfl⟩ := KVerdict.ofByte_eq_some hverdict
        simp only [hverdict] at hdata
        by_cases hok : pv.version = PFSNITCH_ATTR_VERSION ∧ Recognised pv.af pv.proto
        · rw [if_pos hok] at hdata
          obtain ⟨hversion, haf, hproto⟩ := hok
          rw [if_neg (not_not.mpr hversion), if_neg (by tauto), if_neg (by tauto), if_neg (by tauto)]
          exact .done hdata (valid_verdictPush hv haf hsettled) (verdictPush_abs hv haf hproto)
        · rw [if_neg hok] at hdata
          split_ifs
          · exact .refused hdata
          · exact .refused hdata
          · exact .refused hdata
          · exact .refused hdata
          · exact absurd (by unfold Recognised; tauto) hok
  · rw [if_neg hpush]
    by_cases hflush : cmd = PFSNITCH_VERDICT_FLUSH
    · rw [if_pos hflush]
      exact .done (by rw [Request.ofData, if_neg hpush, if_pos hflush]) Vtab.valid_empty rfl
    · rw [if_neg hflush]
      by_cases hresolve : cmd = PFSNITCH_RESOLVE
      · rw [if_pos hresolve]
        extract_lets pr
        have hdata : Request.ofData cmd data = _ :=
          (if_neg hpush).trans ((if_neg hflush).trans (if_pos hresolve))
        extract_lets at hdata
        cases hverdict : KVerdict.ofByte pr.verdict with
        | none =>
            have hno := KVerdict.ofByte_eq_none hverdict
            rw [hverdict] at hdata
            split_ifs
            all_goals exact .refused hdata
        | some v =>
            obtain ⟨hsettled, rfl⟩ := KVerdict.ofByte_eq_some hverdict
            simp only [hverdict] at hdata
            by_cases hversion : pr.version = PFSNITCH_ATTR_VERSION
            · rw [if_pos hversion] at hdata
              rw [if_neg (not_not.mpr hversion), if_neg (by tauto)]
              exact .done hdata (valid_resolve hv pr.id hsettled) (resolve_abs hv pr.id pr.verdict)
            · rw [if_neg hversion] at hdata
              rw [if_pos hversion]
              exact .refused hdata
      · rw [if_neg hresolve]
        by_cases hupcall : cmd = PFSNITCH_UPCALL_SET
        · rw [if_pos hupcall]
          have hdata : Request.ofData cmd data = _ :=
            (if_neg hpush).trans ((if_neg hflush).trans ((if_neg hresolve).trans (if_pos hupcall)))
          exact .done hdata hv rfl
        · rw [if_neg hupcall]
          have hrest : Request.ofData cmd data = _ :=
            (if_neg hpush).trans ((if_neg hflush).trans ((if_neg hresolve).trans (if_neg hupcall)))
          by_cases hquery : cmd = PFSNITCH_ATTR_QUERY
          · rw [if_neg (not_not.mpr hquery)]
            rw [if_pos hquery] at hrest
            extract_lets q
            extract_lets at hrest
            by_cases hok : q.version = PFSNITCH_ATTR_VERSION ∧ Recognised q.af q.proto
            · rw [if_pos hok] at hrest
              obtain ⟨hversion, haf, hproto⟩ := hok
              rw [if_neg (not_not.mpr hversion), if_neg (by tauto), if_neg (by tauto)]
              exact .done hrest hv rfl
            · rw [if_neg hok] at hrest
              split_ifs
              · exact .refused hrest
              · exact .refused hrest
              · exact .refused hrest
              · exact absurd (by unfold Recognised; tauto) hok
          · rw [if_pos hquery]
            rw [if_neg hquery] at hrest
            exact .refused hrest

/-- So is an ioctl of a process. -/
theorem sysIoctl_abs (hv : k.vtab.Valid) (lookup : PfsnitchAttr → PfsnitchAttr) (cmd : UInt64)
    (user : List UInt8) (memory : Bool) :
    (∃ e, k.sysIoctl lookup cmd user memory = .error e ∧ Request.ofIoctl cmd user = .error e) ∨
      ∃ req k' out, k.sysIoctl lookup cmd user memory = .ok (k', out) ∧
        Request.ofIoctl cmd user = .ok req ∧ k'.vtab.Valid ∧ k'.abs = k.abs.request req memory := by
  unfold sysIoctl Request.ofIoctl
  by_cases hshort : user.length < iocparmLen cmd
  · rw [if_pos hshort, if_pos hshort]
    exact .inl ⟨_, rfl, rfl⟩
  · rw [if_neg hshort, if_neg hshort]
    have hspec : Ioctls k cmd _ memory _ := ioctl_spec hv lookup cmd (user.take (iocparmLen cmd))
    generalize k.ioctl lookup cmd (user.take (iocparmLen cmd)) memory = r at hspec ⊢
    cases hspec with
    | refused h => exact .inl ⟨_, rfl, h⟩
    | done h hv habs => exact .inr ⟨_, _, _, rfl, h, hv, habs⟩

/-- The hook leaves the cache alone. -/
theorem vtab_checkConnect (k : RawMod) (so : RawSocket) (sa : SockAddr) (stack : Faddr)
    (memory : Bool) (now : Nat) : (k.checkConnect so sa stack memory now).2.vtab = k.vtab := by
  have hupcall : ∀ proto addr fport info nonblock,
      (k.upcall stack proto addr fport info nonblock memory now).2.vtab = k.vtab := by
    intro proto addr fport info nonblock
    unfold upcall
    repeat' split
    all_goals rfl
  unfold checkConnect
  extract_lets governed
  have hgoverned : ∀ proto, (governed proto).2.vtab = k.vtab := by
    intro proto
    simp only [governed]
    repeat' split
    all_goals first | rfl | exact hupcall ..
  split
  · exact hgoverned _
  · exact hgoverned _
  · rfl

theorem vtab_read (k : RawMod) (resid : Nat) : (k.read resid).2.vtab = k.vtab := by
  unfold read
  repeat' split
  all_goals rfl

end RawMod

/-- The module keeps its queue sound, whatever it is asked. -/
theorem KMod.Sound.request {k : KMod} (h : k.Sound) (req : Request) (memory : Bool) :
    (k.request req memory).Sound := by
  cases req with
  | push proto addr fport v path => exact h.verdictPush ..
  | flush => exact h.congr rfl rfl rfl rfl
  | resolve id v => exact h.resolve ..
  | upcallSet on => exact h.congr rfl rfl rfl rfl
  | query => exact h

/-! ## every run -/

/-- Lists that correspond do so at an index and without it. -/
theorem forall₂_at {α β : Type} {R : α → β → Prop} {l : List α} {l' : List β}
    (h : List.Forall₂ R l l') (i : Nat) :
    (l[i]? = none ∧ l'[i]? = none) ∨ ∃ a b, l[i]? = some a ∧ l'[i]? = some b ∧ R a b ∧
      List.Forall₂ R (l.eraseIdx i) (l'.eraseIdx i) := by
  induction h generalizing i with
  | nil => exact .inl ⟨rfl, rfl⟩
  | cons hab hrest ih =>
      cases i with
      | zero => exact .inr ⟨_, _, rfl, rfl, hab, hrest⟩
      | succ i =>
          refine (ih i).imp id ?_
          rintro ⟨a, b, ha, hb, hR, herase⟩
          exact ⟨a, b, ha, hb, hR, .cons hab herase⟩

theorem KMod.nextId_request (k : KMod) (req : Request) (memory : Bool) :
    (k.request req memory).nextId = k.nextId := by
  cases req with
  | push proto addr fport v path =>
      obtain heq | heq := k.verdictPush_cases proto addr fport v path memory <;>
        rw [KMod.request, heq]
  | flush => rfl
  | resolve id v =>
      obtain ⟨-, heq⟩ | ⟨r, -, -, heq⟩ := k.resolve_step id v memory <;> rw [KMod.request, heq]
  | upcallSet on => rfl
  | query => rfl

/-- An event uses up one id at most. -/
theorem Dev.nextId_step (d : Dev) (ev : DevEvent) :
    (d.step ev).1.kmod.nextId ≤ d.kmod.nextId + 1 := by
  cases ev with
  | hook so sa memory =>
      have hstep := d.kmod.checkConnect_step so sa memory d.now
      simp only [Dev.step]
      generalize d.kmod.checkConnect so sa memory d.now = r at hstep ⊢
      cases hstep with
      | refused => exact Nat.le_succ _
      | swept => exact Nat.le_succ _
      | queued => exact le_rfl
  | ioctl req memory =>
      cases req with
      | error e => exact Nat.le_succ _
      | ok req => exact (d.kmod.nextId_request req memory).le.trans (Nat.le_succ _)
  | read =>
      have hread : d.kmod.read.2.nextId = d.kmod.nextId := by
        obtain heq | ⟨r, -, -, heq⟩ := d.kmod.read_step <;> rw [heq]
      simp only [Dev.step]
      split <;> rename_i heq <;> rw [heq] at hread <;> exact hread.le.trans (Nat.le_succ _)
  | copied i fault =>
      simp only [Dev.step]
      split
      · cases fault <;> exact Nat.le_succ _
      · exact Nat.le_succ _
  | shortRead | close | setFailmode | wait => exact Nat.le_succ _

namespace Stands

variable {q : RawDev} {d : Dev}

theorem fresh (m : Int32) (now : Nat) :
    Stands (.fresh m now) (.fresh (if m = 1 then .fclosed else .fopen) now) where
  valid := Vtab.valid_empty
  sound := KMod.sound_fresh rfl rfl
  kmod := rfl
  copying := .nil
  now := rfl

/-- The ids of the requests tell them apart. -/
theorem nodup_ids (h : Stands q d) : (q.kmod.reqs.map RawReq.id).Nodup := by
  have hids := h.sound.nodup_ids
  rw [← h.kmod, RawMod.abs, List.map_map] at hids
  have hmap : (q.kmod.reqs.map RawReq.id).map UInt64.toNat =
      q.kmod.reqs.map ((fun r => r.id) ∘ RawReq.abs) := by
    rw [List.map_map]
    rfl
  exact (hmap ▸ hids).of_map

/-- One event, as long as there are ids. -/
theorem step (h : Stands q d) (hid : q.kmod.nextId.toNat + 1 < 2 ^ 64) (ev : RawEvent) :
    Stands (q.step ev).1 (d.step ev.abs).1 ∧ Shows (q.step ev).2 (d.step ev.abs).2 := by
  have hnodup := h.nodup_ids
  obtain ⟨k, copying, now⟩ := q
  obtain ⟨k', copying', now'⟩ := d
  obtain ⟨hv, hsound, hk, hcopying, hnow⟩ := h
  dsimp only at hv hk hcopying hnow hid
  subst hk hnow
  cases ev with
  | hook so sa stack memory =>
      have hhook : _ = k.abs.checkConnect so.abs sa.host memory now :=
        RawMod.checkConnect_abs hv hid so sa stack
      have hsound' := hsound.checkConnect so.abs sa.host memory now
      simp only [RawDev.step, RawEvent.abs, Dev.step]
      rw [← hhook] at hsound' ⊢
      exact ⟨⟨(RawMod.vtab_checkConnect ..).symm ▸ hv, hsound', rfl, hcopying, rfl⟩, .hook _⟩
  | ioctl lookup cmd user memory =>
      simp only [RawDev.step, RawEvent.abs]
      obtain ⟨e, hraw, hreq⟩ | ⟨req, k', out, hraw, hreq, hv', habs⟩ :=
        RawMod.sysIoctl_abs hv lookup cmd user memory
      · rw [hraw, hreq]
        exact ⟨⟨hv, hsound, rfl, hcopying, rfl⟩, .refused e⟩
      · rw [hraw, hreq]
        exact ⟨⟨hv', hsound.request req memory, habs, hcopying, rfl⟩, .done out⟩
  | read resid =>
      simp only [RawDev.step, RawEvent.abs]
      by_cases hresid : resid < Struct.size eventLayout
      · rw [RawMod.read, if_pos hresid, if_pos hresid]
        exact ⟨⟨hv, hsound, rfl, hcopying, rfl⟩, .failed _⟩
      · rw [if_neg hresid]
        have hreads := RawMod.read_abs hnodup (Nat.not_lt.mp hresid)
        have hsound' := hsound.read
        have hvtab := RawMod.vtab_read k resid
        simp only [Dev.step]
        generalize k.read resid = r at hreads hvtab ⊢
        generalize k.abs.read = r' at hreads hsound' ⊢
        cases hreads with
        | eof => exact ⟨⟨hvtab ▸ hv, hsound', rfl, hcopying, rfl⟩, .eof⟩
        | wait => exact ⟨⟨hvtab ▸ hv, hsound', rfl, hcopying, rfl⟩, .quiet⟩
        | @event r k' =>
            exact ⟨⟨hvtab ▸ hv, hsound', rfl,
              List.rel_append hcopying (.cons ⟨r, rfl, rfl⟩ .nil), rfl⟩, .quiet⟩
  | copied i fault =>
      simp only [RawDev.step, RawEvent.abs, Dev.step]
      obtain ⟨hnone, hnone'⟩ | ⟨c, r, hc, hr, ⟨p, rfl, rfl⟩, hrest⟩ := forall₂_at hcopying i
      · rw [hnone, hnone']
        exact ⟨⟨hv, hsound, rfl, hcopying, rfl⟩, .quiet⟩
      · rw [hc, hr]
        cases fault with
        | true =>
            have habs := k.redeliver_abs p.id
            exact ⟨⟨hv, hsound.redeliver _, habs, hrest, rfl⟩, .failed _⟩
        | false => exact ⟨⟨hv, hsound, rfl, hrest, rfl⟩, .event rfl⟩
  | close =>
      exact ⟨⟨hv, hsound.congr rfl rfl rfl rfl, rfl, hcopying, rfl⟩, .quiet⟩
  | setFailmode m => exact ⟨⟨hv, hsound.congr rfl rfl rfl rfl, rfl, hcopying, rfl⟩, .quiet⟩
  | wait secs => exact ⟨⟨hv, hsound, rfl, hcopying, rfl⟩, .quiet⟩

theorem nextId_step (h : Stands q d) (hid : q.kmod.nextId.toNat + 1 < 2 ^ 64) (ev : RawEvent) :
    (q.step ev).1.kmod.nextId.toNat ≤ q.kmod.nextId.toNat + 1 := by
  have hused := d.nextId_step ev.abs
  rw [← (h.step hid ev).1.kmod, ← h.kmod] at hused
  exact hused

/-- Events one after the other, as long as there are ids. -/
theorem run (h : Stands q d) (evs : List RawEvent)
    (hid : q.kmod.nextId.toNat + evs.length < 2 ^ 64) :
    Stands (q.run evs).1 (d.run (evs.map RawEvent.abs)).1 ∧
      List.Forall₂ Shows (q.run evs).2 (d.run (evs.map RawEvent.abs)).2 := by
  induction evs generalizing q d with
  | nil => exact ⟨h, .nil⟩
  | cons ev evs ih =>
      rw [List.length_cons] at hid
      obtain ⟨hnext, hshows⟩ := h.step (by omega) ev
      have hused := h.nextId_step (by omega) ev
      obtain ⟨hend, hrest⟩ := ih hnext (by omega)
      exact ⟨hend, .cons hshows hrest⟩

end Stands

/-- A run from a module that has just been loaded. -/
theorem stands_run (m : Int32) (now : Nat) (evs : List RawEvent) (hid : evs.length + 1 < 2 ^ 64) :
    let raw := (RawDev.fresh m now).run evs
    let dev := (Dev.fresh (if m = 1 then .fclosed else .fopen) now).run (evs.map RawEvent.abs)
    Stands raw.1 dev.1 ∧ List.Forall₂ Shows raw.2 dev.2 := by
  have hroom : (RawDev.fresh m now).kmod.nextId.toNat + evs.length < 2 ^ 64 := by
    change 1 + evs.length < 2 ^ 64
    omega
  exact (Stands.fresh m now).run evs hroom

/-- **The compiled device is the module.**  Whatever processes connect or send, whatever bytes
they hand to `ioctl` under whatever number, and however reads end: hook by hook, ioctl by
ioctl and read by read, the compiled device shows what the module shows, and the variables
stand for the module's state at the end.  The queue is sound then. -/
theorem device_refines (m : Int32) (now : Nat) (evs : List RawEvent)
    (hid : evs.length + 1 < 2 ^ 64) :
    let raw := (RawDev.fresh m now).run evs
    let dev := (Dev.fresh (if m = 1 then .fclosed else .fopen) now).run (evs.map RawEvent.abs)
    List.Forall₂ Shows raw.2 dev.2 ∧ raw.1.kmod.abs = dev.1.kmod ∧ dev.1.kmod.Sound := by
  obtain ⟨hend, hshows⟩ := stands_run m now evs hid
  exact ⟨hshows, hend.kmod, hend.sound⟩

/-- With the upcall on a datagram is asked about, its event is read and the answer is a deny, so
that the next datagram is refused; what the module has no number for is refused too. -/
theorem device_refines_datagram :
    let send := RawEvent.hook ⟨.dgram, some ⟨7, 0, [], [47, 97, 0]⟩, false⟩
      (.inet (.v4 ⟨8, 8, 4, 4⟩) 2) ⟨List.replicate 16 0, rfl⟩ true
    let asked : Req := ⟨1, ⟨IPPROTO_UDP, .v4 ⟨8, 8, 4, 4⟩, 512, [47, 97]⟩, false, false, 7, 0, 0⟩
    let answer := Kernattr.resolve 1 false
    let evs := [.ioctl id PFSNITCH_UPCALL_SET [1, 0, 0, 0] true, send, .read 1068, .copied 0 false,
      .ioctl id answer.cmd answer.mem true, send, .ioctl id 0 [] true]
    let raw := (RawDev.fresh 1 0).run evs
    let dev := (Dev.fresh .fclosed 0).run (evs.map RawEvent.abs)
    evs.length + 1 < 2 ^ 64 ∧ List.Forall₂ Shows raw.2 dev.2 ∧ raw.1.kmod.abs = dev.1.kmod ∧
      dev.2 = [.done, .hook .eagain, .quiet, .event asked, .done, .hook .eperm, .refused .enotty] := by
  intro send asked answer evs raw dev
  obtain ⟨hshows, hstands, -⟩ := device_refines 1 0 evs (by decide)
  exact ⟨by decide, hshows, hstands, by decide +kernel⟩

end Pfsnitch
