import Pfsnitch.Kernel.Module

/-!
# Pfsnitch.Kernel.Hook

The connect hook (`pfsn_socket_check_connect`) and what it decides.

With the upcall on, the UDP divert rule is retired and nothing stands behind
the hook.  `hook_governs_iff` says for which sockets and destinations it then
lets a datagram through only on a cached ALLOW or by the failmode: those whose
label has a path that fits, and not the IPv6 addresses that only look like an
IPv4-mapped loopback address.
-/

namespace Pfsnitch

open Lib

/-! ## the hook -/

inductive SockType where
  | stream
  | dgram
  | other
deriving DecidableEq, Repr

/-- The destination handed to `connect(2)` or `sendto(2)`. -/
inductive SockAddr where
  | inet (addr : IpAddr) (port : UInt16)
  | other
deriving DecidableEq, Repr

/-- A socket: its type, its label's content if it has any, and `SS_NBIO`. -/
structure Socket where
  soType : SockType
  label : Option PfsnInfo
  nbio : Bool
deriving DecidableEq, Repr

/-- The loopback test of the hook. -/
def hookLoopback : IpAddr → Bool
  | .v4 a => a.a = 127
  | .v6 a =>
    a.octets = [0, 0, 0, 0, 0, 0, 0, 0, 0, 0, 0, 0, 0, 0, 0, 1] ∨
      (a.octets.getD 10 0 = 0xff ∧ a.octets.getD 11 0 = 0xff ∧ a.octets.getD 12 0 = 127)

/-- `pfsn_socket_check_connect`. -/
def KMod.checkConnect (k : KMod) (so : Socket) (sa : SockAddr) (memory : Bool) (now : Nat) :
    HookResult × KMod :=
  let governed (proto : UInt8) : HookResult × KMod :=
    match sa with
    | .other => (.pass, k)
    | .inet addr fport =>
      if hookLoopback addr then (.pass, k)
      else
        match so.label with
        | none => (.pass, k) -- a socket from before the module loaded
        | some info =>
          if info.path = [] then (.pass, k)
          else
            match k.cache.lookup ⟨proto, addr, fport, info.path⟩ with
            | some .deny => (.eperm, k)
            | some .allow => (.pass, k)
            | none =>
              -- a TCP miss, and DNS, fall through to the divert path
              if k.upcallOn ∧ proto = IPPROTO_UDP ∧ fport ≠ 53 then
                k.upcall proto addr fport info so.nbio memory now
              else (.pass, k)
  match so.soType with
  | .stream => governed IPPROTO_TCP
  | .dgram => governed IPPROTO_UDP
  | .other => (.pass, k)

/-- The hook lets the call pass, answers it by a cached deny, or asks the daemon. -/
theorem KMod.checkConnect_cases (k : KMod) (so : Socket) (sa : SockAddr) (memory : Bool)
    (now : Nat) :
    k.checkConnect so sa memory now = (.pass, k) ∨
      (∃ key, k.cache.lookup key = some .deny ∧ k.checkConnect so sa memory now = (.eperm, k)) ∨
      ∃ addr port info, k.upcallOn = true ∧ k.checkConnect so sa memory now =
        k.upcall IPPROTO_UDP addr port info so.nbio memory now := by
  unfold KMod.checkConnect
  extract_lets governed
  have hgoverned : ∀ proto, governed proto = (.pass, k) ∨
      (∃ key, k.cache.lookup key = some .deny ∧ governed proto = (.eperm, k)) ∨
      ∃ addr port info, k.upcallOn = true ∧
        governed proto = k.upcall IPPROTO_UDP addr port info so.nbio memory now := by
    intro proto
    simp only [governed]
    split
    · exact .inl rfl
    · split
      · exact .inl rfl
      · split
        · exact .inl rfl
        · split
          · exact .inl rfl
          · split
            · exact .inr (.inl ⟨_, ‹_›, rfl⟩)
            · exact .inl rfl
            · split
              · rename_i hask
                rw [hask.2.1]
                exact .inr (.inr ⟨_, _, _, hask.1, rfl⟩)
              · exact .inl rfl
  split
  · exact hgoverned _
  · exact hgoverned _
  · exact .inl rfl

/-- Asking the daemon touches the queue of requests only. -/
theorem KMod.upcall_frame (k : KMod) (proto : UInt8) (addr : IpAddr) (fport : UInt16)
    (info : PfsnInfo) (nonblock memory : Bool) (now : Nat) :
    (k.upcall proto addr fport info nonblock memory now).2.cache = k.cache ∧
      (k.upcall proto addr fport info nonblock memory now).2.upcallOn = k.upcallOn := by
  unfold KMod.upcall
  extract_lets key
  repeat' split
  all_goals exact ⟨rfl, rfl⟩

/-- So does the hook. -/
theorem KMod.checkConnect_frame (k : KMod) (so : Socket) (sa : SockAddr) (memory : Bool)
    (now : Nat) : (k.checkConnect so sa memory now).2.cache = k.cache ∧
      (k.checkConnect so sa memory now).2.upcallOn = k.upcallOn := by
  rcases k.checkConnect_cases so sa memory now with h | ⟨_, -, h⟩ | ⟨_, _, _, -, h⟩ <;> rw [h]
  · exact ⟨rfl, rfl⟩
  · exact ⟨rfl, rfl⟩
  · exact k.upcall_frame ..

/-! ## what the hook must decide -/

/-- Loopback destinations: 127.0.0.0/8, ::1 and ::ffff:127.0.0.0/104. -/
def IsLoopback : IpAddr → Prop
  | .v4 a => a.a = 127
  | .v6 a =>
    a.octets = [0, 0, 0, 0, 0, 0, 0, 0, 0, 0, 0, 0, 0, 0, 0, 1] ∨
      a.octets.take 13 = [0, 0, 0, 0, 0, 0, 0, 0, 0, 0, 0xff, 0xff, 127]

/-- The module cannot ask the daemon: it is unloading, the queue is full, or
there is no memory for one more request. -/
def CannotAsk (k : KMod) (memory : Bool) : Prop :=
  k.unloading = true ∨ k.nreq ≥ PFSN_REQ_MAX ∨ memory = false

/-- A datagram passes only on a cached ALLOW for the owner's path, the
destination and the port, or by the failmode when the daemon cannot be asked. -/
def Governed (k : KMod) (so : Socket) (addr : IpAddr) (port : UInt16) (memory : Bool)
    (now : Nat) : Prop :=
  (k.checkConnect so (.inet addr port) memory now).1 = .pass →
    (∃ info, so.label = some info ∧
        k.cache.lookup ⟨IPPROTO_UDP, addr, port, info.path⟩ = some .allow) ∨
      (k.failmode = .fopen ∧ CannotAsk k memory)

/-- The sockets the hook can key on: the label has a path, and it fits. -/
def Keyable (so : Socket) : Prop :=
  ∃ info, so.label = some info ∧ 0 < info.path.length ∧ info.path.length < 1024

/-- Addresses that only look like loopback to the hook: the bytes of an
IPv4-mapped 127.0.0.0/8 after a prefix that is not all zero. -/
def FalseLoopback (addr : IpAddr) : Prop := hookLoopback addr = true ∧ ¬ IsLoopback addr

/-! ## proofs -/

/-- The hook's test accepts every loopback address. -/
theorem hookLoopback_of_isLoopback {addr : IpAddr} (h : IsLoopback addr) :
    hookLoopback addr = true := by
  cases addr with
  | v4 a => simpa [hookLoopback, IsLoopback] using h
  | v6 a =>
      rcases h with h | h
      · simp [hookLoopback, h]
      · have hget : ∀ i, i < 13 → a.octets[i]? =
            ([0, 0, 0, 0, 0, 0, 0, 0, 0, 0, 0xff, 0xff, 127] : List UInt8)[i]? := by
          intro i hi
          rw [← h, List.getElem?_take_of_lt hi]
        simp [hookLoopback, hget]

theorem failVerdict_eq_pass {k : KMod} (h : k.failVerdict = .pass) : k.failmode = .fopen := by
  cases hf : k.failmode with
  | fopen => rfl
  | fclosed => simp [KMod.failVerdict, hf] at h

/-- With a path that fits, an upcall passes only by the failmode. -/
theorem upcall_pass {k : KMod} {proto : UInt8} {addr : IpAddr} {fport : UInt16} {info : PfsnInfo}
    {nonblock memory : Bool} {now : Nat} (hpos : 0 < info.path.length)
    (hlen : info.path.length < 1024)
    (h : (k.upcall proto addr fport info nonblock memory now).1 = .pass) :
    k.failmode = .fopen ∧ CannotAsk k memory := by
  simp only [KMod.upcall] at h
  split_ifs at h with hpath hunl hdup hfull hmem
  · rcases hpath with hpath | hpath
    · simp [hpath] at hpos
    · omega
  · exact ⟨failVerdict_eq_pass h, .inl hunl⟩
  · exact ⟨failVerdict_eq_pass h, .inr (.inl hfull)⟩
  · refine ⟨?_, .inr (.inr (by simpa using hmem))⟩
    exact failVerdict_eq_pass (k := k.reqGc now) h

/-- With a path that fits, an upcall leaves a request for the key in the queue,
unless the daemon cannot be asked. -/
theorem upcall_asks (k : KMod) (proto : UInt8) (addr : IpAddr) (fport : UInt16) {info : PfsnInfo}
    (nonblock memory : Bool) (now : Nat) (hpos : 0 < info.path.length)
    (hlen : info.path.length < 1024) :
    ((k.upcall proto addr fport info nonblock memory now).1 = .eagain ∧
        ∃ r ∈ (k.upcall proto addr fport info nonblock memory now).2.reqs,
          r.key = ⟨proto, addr, fport, info.path⟩) ∨
      (CannotAsk k memory ∧
        (k.upcall proto addr fport info nonblock memory now).1 = k.failVerdict) := by
  have hpath : ¬ (info.path = [] ∨ info.path.length ≥ 1024) := by
    rintro (h | h)
    · simp [h] at hpos
    · omega
  simp only [KMod.upcall, if_neg hpath]
  split_ifs with hunl hdup hfull hmem
  · exact .inr ⟨.inl hunl, rfl⟩
  · obtain ⟨r, hr, hkey⟩ := List.any_eq_true.mp hdup
    exact .inl ⟨rfl, r, hr, of_decide_eq_true hkey⟩
  · exact .inr ⟨.inr (.inl hfull), rfl⟩
  · exact .inr ⟨.inr (.inr (by simpa using hmem)), rfl⟩
  · exact .inl ⟨rfl, (k.reqGc now).newReq ⟨proto, addr, fport, info.path⟩ info nonblock now,
      by simp, rfl⟩

/-- What the hook does with a datagram it can key on. -/
theorem checkConnect_dgram {k : KMod} {so : Socket} {addr : IpAddr} {port : UInt16}
    {info : PfsnInfo} {memory : Bool} {now : Nat} (hso : so.soType = .dgram)
    (hlabel : so.label = some info) (hpath : info.path ≠ []) (hloop : hookLoopback addr = false) :
    k.checkConnect so (.inet addr port) memory now =
      match k.cache.lookup ⟨IPPROTO_UDP, addr, port, info.path⟩ with
      | some .deny => (.eperm, k)
      | some .allow => (.pass, k)
      | none =>
        if k.upcallOn ∧ port ≠ 53 then k.upcall IPPROTO_UDP addr port info so.nbio memory now
        else (.pass, k) := by
  simp [KMod.checkConnect, hso, hloop, hlabel, hpath]

/-- A module that has just been loaded, with the upcall on. -/
def KMod.fresh : KMod := { upcallOn := true }

/-- **The hook and the sends it governs.**  With the upcall on, a datagram to a
destination that is neither loopback nor port 53 is governed in every state of
the module exactly when the socket is keyable and the destination is not a
false loopback. -/
theorem hook_governs_iff (so : Socket) (hso : so.soType = .dgram) (addr : IpAddr)
    (haddr : ¬ IsLoopback addr) (port : UInt16) (hport : port ≠ 53) :
    (∀ k : KMod, k.upcallOn = true → ∀ memory now, Governed k so addr port memory now) ↔
      Keyable so ∧ ¬ FalseLoopback addr := by
  constructor
  · intro h
    have hfresh := h KMod.fresh rfl true 0
    -- nothing is cached and the daemon can be asked, so the datagram must not pass
    have hno : (KMod.fresh.checkConnect so (.inet addr port) true 0).1 ≠ .pass := by
      intro hpass
      rcases hfresh hpass with ⟨info, -, hcached⟩ | ⟨-, hunl | hfull | hmem⟩
      · exact absurd hcached (by simp [KMod.fresh, VCache.lookup, Table.find, Table.empty, Table.findIn])
      · exact absurd hunl (by decide)
      · exact absurd hfull (by decide)
      · exact absurd hmem (by decide)
    cases hloop : hookLoopback addr with
    | true => exact absurd (by simp [KMod.checkConnect, hso, hloop]) hno
    | false =>
        cases hlabel : so.label with
        | none => exact absurd (by simp [KMod.checkConnect, hso, hloop, hlabel]) hno
        | some info =>
            refine ⟨⟨info, hlabel, ?_, ?_⟩, fun hfalse => by
              simp [hfalse.1] at hloop⟩
            · by_contra hpos
              have hpath : info.path = [] := List.length_eq_zero_iff.mp (by omega)
              exact hno (by simp [KMod.checkConnect, hso, hloop, hlabel, hpath])
            · by_contra hlen
              have hpath : info.path ≠ [] := by
                rintro hnil
                simp [hnil] at hlen
              refine hno ?_
              rw [checkConnect_dgram hso hlabel hpath hloop]
              simp [KMod.fresh, VCache.lookup, Table.find, Table.empty, Table.findIn, hport,
                KMod.upcall, Nat.not_lt.mp hlen]
  · rintro ⟨⟨info, hlabel, hpos, hlen⟩, hfalse⟩ k hup memory now hpass
    have hloop : hookLoopback addr = false := by
      rw [← Bool.not_eq_true]
      exact fun h => hfalse ⟨h, haddr⟩
    have hpath : info.path ≠ [] := List.length_pos_iff.mp hpos
    rw [checkConnect_dgram hso hlabel hpath hloop] at hpass
    cases hc : k.cache.lookup ⟨IPPROTO_UDP, addr, port, info.path⟩ with
    | some v =>
        cases v with
        | allow => exact .inl ⟨info, hlabel, hc⟩
        | deny => simp [hc] at hpass
    | none =>
        simp only [hc, hup, hport, ne_eq, not_false_eq_true, and_self, if_true] at hpass
        exact .inr (upcall_pass hpos hlen hpass)

/-- A labelled socket of a binary with an ordinary path is governed. -/
theorem hook_governs_labelled :
    let so : Socket := ⟨.dgram, some ⟨100, 0, [0x2f, 0x61]⟩, false⟩
    ∀ k : KMod, k.upcallOn = true → ∀ memory now,
      Governed k so (.v4 ⟨192, 0, 2, 1⟩) 443 memory now := by
  intro so
  have hno : ¬ FalseLoopback (.v4 ⟨192, 0, 2, 1⟩) := fun h => absurd h.1 (by decide)
  exact (hook_governs_iff so rfl (.v4 ⟨192, 0, 2, 1⟩) (by simp [IsLoopback]) 443 (by decide)).mpr
    ⟨⟨_, rfl, by decide, by decide⟩, hno⟩

/-- A socket from before the module was loaded is not: its datagrams pass with
an empty cache, an empty queue and the upcall on. -/
theorem hook_passes_unlabelled :
    ¬ ∀ (k : KMod) (so : Socket) (addr : IpAddr) (port : UInt16) (memory : Bool) (now : Nat),
      k.upcallOn = true → so.soType = .dgram → ¬ IsLoopback addr → port ≠ 53 →
        Governed k so addr port memory now := by
  intro h
  rcases h KMod.fresh ⟨.dgram, none, false⟩ (.v4 ⟨192, 0, 2, 1⟩) 123 true 0 rfl rfl
    (by simp [IsLoopback]) (by decide) rfl with ⟨info, hlabel, -⟩ | ⟨-, hunl | hfull | hmem⟩
  · cases hlabel
  · exact absurd hunl (by decide)
  · exact absurd hfull (by decide)
  · exact absurd hmem (by decide)

end Pfsnitch
