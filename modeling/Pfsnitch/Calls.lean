import Pfsnitch.Wire

/-!
# Pfsnitch.Calls

The daemon and the compiled device understand each other.
-/

namespace Pfsnitch

open Lib

/-! ## the daemon's calls -/

namespace Kernattr

theorem cmds_eq : attrQueryCmd = PFSNITCH_ATTR_QUERY ∧ verdictPushCmd = PFSNITCH_VERDICT_PUSH ∧
    verdictFlushCmd = PFSNITCH_VERDICT_FLUSH ∧ resolveCmd = PFSNITCH_RESOLVE ∧
    upcallSetCmd = PFSNITCH_UPCALL_SET := by decide

theorem addrOf_field (addr : IpAddr) : addrOf (familyOf addr) (addrField addr) = addr := by
  cases addr with
  | v4 a => rfl
  | v6 a => rfl

theorem familyOf_known (addr : IpAddr) : familyOf addr = 4 ∨ familyOf addr = 6 := by
  cases addr with
  | v4 a => exact .inl rfl
  | v6 a => exact .inr rfl

theorem ofIoctl_setUpcall (on : Bool) :
    Request.ofIoctl (setUpcall on).cmd (setUpcall on).mem = .ok (.upcallSet on) := by
  cases on <;> decide

end Kernattr

/-- A datagram to 8.8.4.4 is asked about, and the event is read. -/
def askedAndRead (stack : Faddr) : List RawEvent :=
  [.ioctl id PFSNITCH_UPCALL_SET [1, 0, 0, 0] true,
    .hook ⟨.dgram, some ⟨7, 0, [], [47, 97, 0]⟩, false⟩ (.inet (.v4 ⟨8, 8, 4, 4⟩) 2) stack true,
    .read 1068, .copied 0 false]

/-- Events of the device that differ in what lies on the hook's stack and behind the strings
of a creator's record, and in nothing else. -/
inductive RawEvent.Alike : RawEvent → RawEvent → Prop
  | hook {so so' : RawSocket} (h : so.abs = so'.abs) (sa : SockAddr) (stack stack' : Faddr)
      (memory : Bool) : Alike (.hook so sa stack memory) (.hook so' sa stack' memory)
  | refl (ev : RawEvent) : Alike ev ev

/-- What two processes see when they see the same, up to the last twelve bytes of the address
field of an IPv4 event. -/
inductive SeenAlike : RawOutcome → RawOutcome → Prop
  | same (o : RawOutcome) : SeenAlike o o
  | event {bytes bytes' : List UInt8} {ev : KernEvent} {a : Ipv4Addr}
      (hfront : bytes.take 16 = bytes'.take 16)
      (hback : bytes.drop 28 = bytes'.drop 28) (hread : Kernattr.readEvent bytes = .event ev)
      (hread' : Kernattr.readEvent bytes' = .event ev) (hv4 : ev.dst = .v4 a) :
      SeenAlike (.read (.ok bytes)) (.read (.ok bytes'))

theorem RawEvent.Alike.abs {ev ev' : RawEvent} (h : ev.Alike ev') : ev.abs = ev'.abs := by
  cases h with
  | hook h => simp only [RawEvent.abs, h]
  | refl => rfl

/-- The bytes of an event, around the address. -/
def eventFront (r : RawReq) : List UInt8 :=
  leBytes 8 r.id.toNat ++ ([r.af, r.proto] ++ leBytes 2 r.fport.toNat)

def eventBack (r : RawReq) : List UInt8 :=
  r.nonblock :: ((CType.zeros 3).1 ++ (leBytes 4 r.pid.toUInt32.toNat ++
    (leBytes 4 r.uid.toNat ++ RawMod.strlcpy (List.replicate 1024 0) r.path)))

theorem event_eq (r : RawReq) : RawMod.event r = eventFront r ++ (r.faddr.1 ++ eventBack r) := by
  simp [-List.reduceReplicate, RawMod.event, Struct.put, Struct.putFrom, Struct.start, Struct.stop,
    Struct.size, Struct.align, alignUp, CType.align, CType.size, CType.put, eventFront, eventBack]

/-- What a request says, its address field apart, is what the bytes around the address say. -/
theorem RawReq.ext_abs {r r' : RawReq} (h : r.abs = r'.abs) :
    eventFront r = eventFront r' ∧ eventBack r = eventBack r' ∧ r.af = r'.af ∧
      r.faddr.1.take (familyBytes r.af) = r'.faddr.1.take (familyBytes r.af) := by
  obtain ⟨hid, hkey, hnonblock, -, hpid, huid, -⟩ := Req.mk.inj h
  obtain ⟨hproto, haddr, hport, hpath⟩ := VKey.mk.inj hkey
  obtain ⟨haf, hfaddr⟩ := (addrOf_eq_iff r'.family r.family).mp haddr
  have hid : r.id = r'.id := UInt64.toNat_inj.mp hid
  have hport : r.fport = r'.fport := ntohs_injective hport
  have hpid : r.pid = r'.pid := Int32.toInt_inj.mp hpid
  have hnonblock : r.nonblock = r'.nonblock := by
    obtain hb | hb := r.binary <;> obtain hb' | hb' := r'.binary <;> simp_all
  have hpath : r.path = r'.path := by
    rw [r.terminated, r'.terminated]
    exact congrArg (· ++ [0]) hpath
  refine ⟨?_, ?_, haf, ?_⟩
  · rw [eventFront, eventFront, hid, haf, hproto, hport]
  · rw [eventBack, eventBack, hnonblock, hpid, huid, hpath]
  · rw [haf]
    exact hfaddr

theorem length_eventFront (r : RawReq) : (eventFront r).length = 12 := by
  simp [eventFront]

/-- The bytes before the last twelve of the address field, and those behind them. -/
theorem event_take_drop (r : RawReq) :
    (RawMod.event r).take 16 = eventFront r ++ r.faddr.1.take 4 ∧
      (RawMod.event r).drop 28 = eventBack r := by
  have hfront := length_eventFront r
  have hfield := r.faddr.2
  rw [event_eq]
  constructor
  · rw [List.take_append, hfront, List.take_of_length_le (by omega),
      List.take_append_of_le_length (by omega)]
  · rw [List.drop_append, hfront, List.drop_of_length_le (by omega), List.nil_append,
      List.drop_append, hfield, List.drop_of_length_le (by omega), List.nil_append]
    rfl

theorem event_alike {r r' : RawReq} (h : r.abs = r'.abs) :
    SeenAlike (.read (.ok (RawMod.event r))) (.read (.ok (RawMod.event r'))) := by
  obtain ⟨hfront, hback, haf, hfaddr⟩ := RawReq.ext_abs h
  obtain hfour | hsix := r.family
  · obtain ⟨htake, hdrop⟩ := event_take_drop r
    obtain ⟨htake', hdrop'⟩ := event_take_drop r'
    have hfour' : familyBytes r.af = 4 := by rw [hfour]; rfl
    rw [hfour'] at hfaddr
    have hread := readEvent_event r
    have hread' := readEvent_event r'
    rw [← h] at hread'
    have hdst : r.abs.event.dst = addrOf r.af r.faddr := rfl
    rw [hfour, addrOf, if_pos rfl] at hdst
    exact .event (by rw [htake, htake', hfront, hfaddr]) (by rw [hdrop, hdrop', hback]) hread
      hread' hdst
  · have hall : RawMod.event r = RawMod.event r' := by
      have hall : familyBytes r.af = 16 := by rw [hsix]; rfl
      have hfield : r.faddr.1 = r'.faddr.1 := by
        rwa [hall, List.take_of_length_le r.faddr.2.le, List.take_of_length_le r'.faddr.2.le] at hfaddr
      rw [event_eq, event_eq, hfront, hback, hfield]
    rw [hall]
    exact .same _

/-- What an ioctl hands back depends on its argument only. -/
theorem sysIoctl_out (k k' : RawMod) (lookup : PfsnitchAttr → PfsnitchAttr) (cmd : UInt64)
    (user : List UInt8) (memory : Bool) :
    (k.sysIoctl lookup cmd user memory).map Prod.snd =
      (k'.sysIoctl lookup cmd user memory).map Prod.snd := by
  unfold RawMod.sysIoctl RawMod.ioctl
  extract_lets
  split_ifs <;> rfl

/-- What shows the same outcome of the module is seen alike. -/
theorem Shows.alike {o o' : RawOutcome} {x : DevOutcome} (h : Shows o x) (h' : Shows o' x)
    (hx : x ≠ .done) : SeenAlike o o' := by
  cases h with
  | done out => exact absurd rfl hx
  | event h =>
      cases h' with
      | event h' => exact event_alike (h.trans h'.symm)
  | hook r => cases h'; exact .same _
  | refused e => cases h'; exact .same _
  | failed e => cases h'; exact .same _
  | eof => cases h'; exact .same _
  | quiet => cases h'; exact .same _

theorem RawDev.step_ioctl (q : RawDev) (lookup : PfsnitchAttr → PfsnitchAttr) (cmd : UInt64)
    (user : List UInt8) (memory : Bool) : (q.step (.ioctl lookup cmd user memory)).2 =
      .ioctl ((q.kmod.sysIoctl lookup cmd user memory).map Prod.snd) := by
  rw [RawDev.step]
  split <;> rename_i heq <;> rw [heq] <;> rfl

theorem Dev.step_ne_done (d : Dev) {ev : DevEvent} (h : ∀ req memory, ev ≠ .ioctl req memory) :
    (d.step ev).2 ≠ .done := by
  cases ev with
  | ioctl req memory => exact absurd rfl (h req memory)
  | read =>
      rw [Dev.step]
      split <;> exact DevOutcome.noConfusion
  | copied i fault =>
      rw [Dev.step]
      split
      · cases fault <;> exact DevOutcome.noConfusion
      · exact DevOutcome.noConfusion
  | hook | shortRead | close | setFailmode | wait => exact DevOutcome.noConfusion

theorem Stands.nextId_eq {q q' : RawDev} {d : Dev} (h : Stands q d) (h' : Stands q' d) :
    q.kmod.nextId.toNat = q'.kmod.nextId.toNat := by
  have hnext : q.kmod.abs.nextId = q'.kmod.abs.nextId := by rw [h.kmod, h'.kmod]
  exact hnext

/-- One event, of two devices that stand for one module. -/
theorem Stands.step_alike {q q' : RawDev} {d : Dev} (h : Stands q d) (h' : Stands q' d)
    (hid : q.kmod.nextId.toNat + 1 < 2 ^ 64) {ev ev' : RawEvent} (hev : ev.Alike ev') :
    SeenAlike (q.step ev).2 (q'.step ev').2 := by
  have hshows := (h.step hid ev).2
  have hshows' := (h'.step (h.nextId_eq h' ▸ hid) ev').2
  rw [← hev.abs] at hshows'
  cases hev with
  | hook heq sa stack stack' memory =>
      exact hshows.alike hshows' (Dev.step_ne_done d fun _ _ h => nomatch h)
  | refl =>
      by_cases hioctl : ∃ lookup cmd user memory, ev = .ioctl lookup cmd user memory
      · obtain ⟨lookup, cmd, user, memory, rfl⟩ := hioctl
        rw [RawDev.step_ioctl, RawDev.step_ioctl, sysIoctl_out]
        exact .same _
      · refine hshows.alike hshows' (Dev.step_ne_done d fun req memory habs => hioctl ?_)
        cases ev with
        | ioctl lookup cmd user memory => exact ⟨lookup, cmd, user, memory, rfl⟩
        | read resid =>
            rw [RawEvent.abs] at habs
            split at habs <;> cases habs
        | hook | copied | close | setFailmode | wait => cases habs

/-- Events one after the other. -/
theorem Stands.run_alike {q q' : RawDev} {d : Dev} (h : Stands q d) (h' : Stands q' d)
    {evs evs' : List RawEvent} (hev : List.Forall₂ RawEvent.Alike evs evs')
    (hid : q.kmod.nextId.toNat + evs.length < 2 ^ 64) :
    List.Forall₂ SeenAlike (q.run evs).2 (q'.run evs').2 := by
  induction hev generalizing q q' d with
  | nil => exact .nil
  | @cons ev ev' evs evs' hab hrest ih =>
      rw [List.length_cons] at hid
      have hsame := h.nextId_eq h'
      have hnext := (h.step (by omega) ev).1
      have hnext' := (h'.step (by omega) ev').1
      rw [← hab.abs] at hnext'
      have hroom : (q.step ev).1.kmod.nextId.toNat + evs.length < 2 ^ 64 :=
        Nat.lt_of_le_of_lt (Nat.add_le_add_right (h.nextId_step (by omega) ev) _) (by omega)
      exact .cons (h.step_alike h' (by omega) hab) (ih hnext hnext' hroom)

/-- **What a process learns of the hook's stack.**  Two runs that differ in what lies on the
hook's stack, and behind the strings of creators' records, look alike to every process: the
same answers, the same errors and the same bytes, but for the last twelve bytes of the
address field in an IPv4 event, and these the daemon does not read. -/
theorem stack_disclosed (m : Int32) (now : Nat) {evs evs' : List RawEvent}
    (hid : evs.length + 1 < 2 ^ 64) (hev : List.Forall₂ RawEvent.Alike evs evs') :
    List.Forall₂ SeenAlike ((RawDev.fresh m now).run evs).2 ((RawDev.fresh m now).run evs').2 := by
  have hroom : (RawDev.fresh m now).kmod.nextId.toNat + evs.length < 2 ^ 64 := by
    change 1 + evs.length < 2 ^ 64
    omega
  exact (Stands.fresh m now).run_alike (.fresh m now) hev hroom

/-- The address field of the event that was read. -/
def RawOutcome.addrField : RawOutcome → List UInt8
  | .read (.ok bytes) => (bytes.drop 12).take 16
  | _ => []

/-- Two stacks that are disclosed. -/
theorem stack_disclosed_datagram :
    let zeros : Faddr := ⟨List.replicate 16 0, rfl⟩
    let nines : Faddr := ⟨List.replicate 16 9, rfl⟩
    (askedAndRead zeros).length + 1 < 2 ^ 64 ∧
      List.Forall₂ RawEvent.Alike (askedAndRead zeros) (askedAndRead nines) ∧
      List.Forall₂ SeenAlike ((RawDev.fresh 0 0).run (askedAndRead zeros)).2
        ((RawDev.fresh 0 0).run (askedAndRead nines)).2 ∧
      ((RawDev.fresh 0 0).run (askedAndRead zeros)).2.map RawOutcome.addrField =
        [[], [], [], [8, 8, 4, 4] ++ List.replicate 12 0] ∧
      ((RawDev.fresh 0 0).run (askedAndRead nines)).2.map RawOutcome.addrField =
        [[], [], [], [8, 8, 4, 4] ++ List.replicate 12 9] := by
  intro zeros nines
  have hev : List.Forall₂ RawEvent.Alike (askedAndRead zeros) (askedAndRead nines) :=
    .cons (.refl _) (.cons (.hook rfl _ _ _ _) (.cons (.refl _) (.cons (.refl _) .nil)))
  exact ⟨by decide, hev, stack_disclosed 0 0 (by decide) hev, by decide +kernel, by decide +kernel⟩

end Pfsnitch
