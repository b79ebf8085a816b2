import Pfsnitch.Kernel.Hook

/-!
# Pfsnitch.Kernel.Miss

What an upcall does, by the queue it finds, and the calls the hook puts to the daemon:
datagrams of labelled sockets to governed destinations, for which the cache has no verdict
(`KMod.Misses`).
-/

namespace Pfsnitch

open Lib

/-- The protocol under which the verdicts of a socket are cached. -/
def SockType.proto : SockType → Option UInt8
  | .stream => some IPPROTO_TCP
  | .dgram => some IPPROTO_UDP
  | .other => none

variable {k : KMod} {so : Socket} {addr : IpAddr} {port : UInt16} {info : PfsnInfo}
  {proto : UInt8} {memory : Bool} {now : Nat}

/-! ## upcalls -/

namespace KMod

/-- A request for the key is queued. -/
def Awaits (k : KMod) (key : VKey) : Prop := ∃ r ∈ k.reqs, r.key = key

theorem failVerdict_ne_eagain (k : KMod) : k.failVerdict ≠ .eagain := by
  rw [failVerdict]
  split
  · intro h
    cases h
  · intro h
    cases h

section Upcall

variable {nonblock : Bool}

theorem any_key_iff (key : VKey) :
    (k.reqs.any fun r => decide (r.key = key)) = true ↔ k.Awaits key := by
  simp [Awaits]

/-- An unloading module puts no question. -/
theorem upcall_unloading (hpath : info.path ≠ []) (hlen : info.path.length < 1024)
    (hunl : k.unloading = true) :
    k.upcall proto addr port info nonblock memory now = (k.failVerdict, k) := by
  rw [upcall, if_neg (by simp [hpath, hlen]), if_pos hunl]

/-- A question is put once. -/
theorem upcall_asked (hpath : info.path ≠ []) (hlen : info.path.length < 1024)
    (hunl : k.unloading = false) (hdup : k.Awaits ⟨proto, addr, port, info.path⟩) :
    k.upcall proto addr port info nonblock memory now = (.eagain, k) := by
  rw [upcall, if_neg (by simp [hpath, hlen]), if_neg (by simp [hunl]),
    if_pos ((any_key_iff _).mpr hdup)]

/-- A full queue takes no question. -/
theorem upcall_full (hpath : info.path ≠ []) (hlen : info.path.length < 1024)
    (hunl : k.unloading = false) (hdup : ¬ k.Awaits ⟨proto, addr, port, info.path⟩)
    (hfull : PFSN_REQ_MAX ≤ k.nreq) :
    k.upcall proto addr port info nonblock memory now = (k.failVerdict, k) := by
  rw [upcall, if_neg (by simp [hpath, hlen]), if_neg (by simp [hunl]),
    if_neg (hdup ∘ (any_key_iff _).mp), if_pos hfull]

/-- Otherwise the queue is swept and takes the question, memory permitting. -/
theorem upcall_room (hpath : info.path ≠ []) (hlen : info.path.length < 1024)
    (hunl : k.unloading = false) (hdup : ¬ k.Awaits ⟨proto, addr, port, info.path⟩)
    (hroom : k.nreq < PFSN_REQ_MAX) :
    k.upcall proto addr port info nonblock memory now =
      if memory then (.eagain, { k.reqGc now with
        reqs := (k.reqGc now).reqs ++
          [(k.reqGc now).newReq ⟨proto, addr, port, info.path⟩ info nonblock now]
        nextId := k.nextId + 1
        nreq := (k.reqGc now).nreq + 1 })
      else (k.failVerdict, k.reqGc now) := by
  rw [upcall, if_neg (by simp [hpath, hlen]), if_neg (by simp [hunl]),
    if_neg (hdup ∘ (any_key_iff _).mp), if_neg (Nat.not_le.mpr hroom)]
  cases memory <;> rfl

end Upcall

end KMod

/-! ## misses -/

/-- What the hook does with a call of a labelled socket. -/
theorem checkConnect_labelled (hproto : so.soType.proto = some proto)
    (hlabel : so.label = some info) (hpath : info.path ≠ []) (hloop : hookLoopback addr = false) :
    k.checkConnect so (.inet addr port) memory now =
      match k.cache.lookup ⟨proto, addr, port, info.path⟩ with
      | some .deny => (.eperm, k)
      | some .allow => (.pass, k)
      | none =>
        if k.upcallOn ∧ proto = IPPROTO_UDP ∧ port ≠ 53 then
          k.upcall proto addr port info so.nbio memory now
        else (.pass, k) := by
  have hverdicts : k.cache.lookup ⟨proto, addr, port, info.path⟩ = none ∨
      k.cache.lookup ⟨proto, addr, port, info.path⟩ = some .deny ∨
      k.cache.lookup ⟨proto, addr, port, info.path⟩ = some .allow := by
    rcases k.cache.lookup ⟨proto, addr, port, info.path⟩ with _ | _ | _
    · exact .inl rfl
    · exact .inr (.inr rfl)
    · exact .inr (.inl rfl)
  cases hso : so.soType with
  | stream | dgram =>
      rw [hso] at hproto
      obtain rfl := Option.some.inj hproto
      obtain hlookup | hlookup | hlookup := hverdicts
      all_goals simp [KMod.checkConnect, hso, hloop, hlabel, hpath, hlookup]
  | other =>
      rw [hso] at hproto
      cases hproto

/-- A call without a verdict that the hook asks about. -/
structure KMod.Misses (k : KMod) (so : Socket) (addr : IpAddr) (port : UInt16)
    (info : PfsnInfo) : Prop where
  upcall : k.upcallOn = true
  dgram : so.soType = .dgram
  label : so.label = some info
  named : info.path ≠ []
  governed : hookLoopback addr = false
  asked : port ≠ 53
  uncached : k.cache.lookup ⟨IPPROTO_UDP, addr, port, info.path⟩ = none

/-- A datagram socket of `/a`, process 100 of root. -/
def socketOfA : Socket := ⟨.dgram, some ⟨100, 0, [0x2f, 0x61]⟩, false⟩

/-- A miss is an upcall. -/
theorem KMod.Misses.checkConnect (h : k.Misses so addr port info) (memory : Bool) (now : Nat) :
    k.checkConnect so (.inet addr port) memory now =
      k.upcall IPPROTO_UDP addr port info so.nbio memory now := by
  rw [checkConnect_labelled (by rw [h.dgram]; rfl) h.label h.named h.governed, h.uncached]
  exact if_pos ⟨h.upcall, rfl, h.asked⟩

/-- The calls the hook looks up: those of a labelled stream or datagram socket to a
destination that is not exempt. -/
def Governable (so : Socket) (sa : SockAddr) : Prop :=
  ∃ addr port info proto, sa = .inet addr port ∧ hookLoopback addr = false ∧
    so.label = some info ∧ info.path ≠ [] ∧ so.soType.proto = some proto

/-- All other calls pass. -/
theorem checkConnect_of_not_governable {sa : SockAddr} (h : ¬ Governable so sa) :
    k.checkConnect so sa memory now = (.pass, k) := by
  unfold KMod.checkConnect
  extract_lets governed
  have hpass : ∀ proto, so.soType.proto = some proto → governed proto = (.pass, k) := by
    intro proto hproto
    simp only [governed]
    split
    · rfl
    · split
      · rfl
      · rename_i hloop
        split
        · rfl
        · rename_i hlabel
          split
          · rfl
          · rename_i hpath
            exact absurd ⟨_, _, _, _, rfl, Bool.eq_false_iff.mpr hloop, hlabel, hpath, hproto⟩ h
  split
  · rename_i hso
    exact hpass _ (by rw [hso]; rfl)
  · rename_i hso
    exact hpass _ (by rw [hso]; rfl)
  · rfl

/-- Every call but a miss is answered at once, and leaves the module as it is. -/
theorem KMod.checkConnect_misses (k : KMod) (so : Socket) (sa : SockAddr) (memory : Bool)
    (now : Nat) :
    ((k.checkConnect so sa memory now).1 ≠ .eagain ∧ (k.checkConnect so sa memory now).2 = k) ∨
      ∃ addr port info, sa = .inet addr port ∧ k.Misses so addr port info := by
  by_cases hgov : Governable so sa
  · obtain ⟨addr, port, info, proto, rfl, hloop, hlabel, hpath, hproto⟩ := hgov
    rw [checkConnect_labelled hproto hlabel hpath hloop]
    split
    · exact .inl ⟨nofun, rfl⟩
    · exact .inl ⟨nofun, rfl⟩
    · rename_i hnone
      split
      · rename_i hask
        obtain ⟨hup, rfl, hport⟩ := hask
        have hso : so.soType = .dgram := by
          cases hso : so.soType with
          | dgram => rfl
          | stream => rw [hso] at hproto; exact absurd hproto (by decide)
          | other => rw [hso] at hproto; cases hproto
        exact .inr ⟨addr, port, info, rfl, hup, hso, hlabel, hpath, hloop, hport, hnone⟩
      · exact .inl ⟨nofun, rfl⟩
  · rw [checkConnect_of_not_governable hgov]
    exact .inl ⟨nofun, rfl⟩

end Pfsnitch
