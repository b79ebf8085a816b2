import Pfsnitch.Lib.Claims
import Pfsnitch.Lib.IpAddr
import Pfsnitch.Lib.Utf8
import Mathlib.Data.List.Forall2

/-!
# Pfsnitch.Procinfo.Tables

Which process owns a flow: the socket tables of `procinfo.rs` and the walk over
processes and their files that fills them.

The walk only depends on the sockets it meets (`snapshot_eq`), and what it leaves in the
tables is told by the claims these sockets make, tier by tier (`snapshot_holds`).
-/

namespace Pfsnitch.Procinfo

open Lib

/-! ## owners and flows -/

/-- Identity of the process behind a socket. -/
structure Owner where
  pid : Int
  command : Str
  path : Str
deriving DecidableEq

/-- The 4-tuple identifying a flow, and its protocol. -/
structure Tuple where
  proto : UInt8
  src : IpAddr
  sport : UInt16
  dst : IpAddr
  dport : UInt16
deriving DecidableEq

/-- How confidently an owner was identified: by the kernel module, by the whole tuple, by
the local address and port, or by the local port alone. -/
inductive Confidence where
  | kernel
  | exact
  | localAddr
  | port
deriving DecidableEq

/-- An owner, plus how it was found. -/
structure Attribution where
  owner : Owner
  confidence : Confidence
deriving DecidableEq

/-! ## what the kernel reports -/

/-- `sockaddr_storage`, as far as its family is one of the two. -/
inductive SockAddr where
  | inet (port : UInt16) (addr : Ipv4Addr)
  | inet6 (port : UInt16) (addr : Ipv6Addr)
  | other

/-- `sockstat`. -/
structure SockStat where
  proto : Int32
  saLocal : SockAddr
  saPeer : SockAddr

/-- `filestat`, with what `procstat_get_socket_info` says of it. -/
structure File where
  fsType : Int
  info : Option SockStat

/-- `kinfo_proc`, with the path that `procstat_getpathname` and the files that
`procstat_getfiles` give for it. -/
structure Process where
  pid : Int
  comm : List UInt8
  pathname : Option (List UInt8)
  files : Option (List File)

/-- The process table, if it can be had.  No two processes have one pid. -/
structure Machine where
  procs : Option (List Process)
  nodup : ((procs.getD []).map Process.pid).Nodup

/-! ## the tables -/

/-- Socket tables, one per confidence tier.  The maps `local` and `port` each come with
the set of their contested keys. -/
structure Tables where
  exact : AList fun _ : Tuple => Owner
  locals : Claims (UInt8 × IpAddr × UInt16) Owner
  ports : Claims (UInt8 × UInt16) Owner

namespace Tables

/-- `Tables::default`. -/
def default : Tables := ⟨∅, .empty, .empty⟩

def addLocal (tb : Tables) (k : UInt8 × IpAddr × UInt16) (o : Owner) : Tables :=
  { tb with locals := tb.locals.add Owner.pid k o }

def addPort (tb : Tables) (k : UInt8 × UInt16) (o : Owner) : Tables :=
  { tb with ports := tb.ports.add Owner.pid k o }

/-- Look a flow up, strongest tier first. -/
def get (tb : Tables) (t : Tuple) (outbound : Bool) : Option Attribution :=
  match tb.exact.lookup t with
  | some o => some ⟨o, .exact⟩
  | none =>
    if !outbound then none
    else
      match tb.locals.find (t.proto, t.src, t.sport) with
      | some o => some ⟨o, .localAddr⟩
      | none =>
        match tb.ports.find (t.proto, t.sport) with
        | some o => some ⟨o, .port⟩
        | none => none

@[simp] theorem get_default (t : Tuple) (outbound : Bool) : default.get t outbound = none := by
  cases outbound <;> rfl

/-- Where an answer comes from. -/
theorem get_cases {tb : Tables} {t : Tuple} {outbound : Bool} {a : Attribution}
    (h : tb.get t outbound = some a) :
    (a.confidence = .exact ∧ tb.exact.lookup t = some a.owner) ∨
    (a.confidence = .localAddr ∧ tb.locals.find (t.proto, t.src, t.sport) = some a.owner) ∨
    (a.confidence = .port ∧ tb.ports.find (t.proto, t.sport) = some a.owner) := by
  unfold get at h
  split at h
  · rename_i o ho
    cases h
    exact .inl ⟨rfl, ho⟩
  · split at h
    · cases h
    · split at h
      · rename_i o ho
        cases h
        exact .inr (.inl ⟨rfl, ho⟩)
      · split at h
        · rename_i o ho
          cases h
          exact .inr (.inr ⟨rfl, ho⟩)
        · cases h

end Tables

/-! ## the walk -/

/-- Pull the address and port out of a kernel socket; an unbound one has nothing to key a
flow on. -/
def endpoint : SockAddr → Option (IpAddr × UInt16)
  | .inet port addr => if port = 0 then none else some (.v4 addr, port)
  | .inet6 port addr => if port = 0 then none else some (.v6 addr, port)
  | .other => none

/-- `IpAddr::is_unspecified`. -/
def isUnspecified : IpAddr → Bool
  | .v4 a => a.octets.all (· == 0)
  | .v6 a => a.octets.all (· == 0)

/-- `PS_FST_TYPE_SOCKET`. -/
def fstTypeSocket : Int := 3

/-- `proto as u8`. -/
def SockStat.protoU8 (s : SockStat) : UInt8 := s.proto.toUInt32.toUInt8

/-- Enter a socket under the keys its endpoints allow. -/
def Tables.addSocket (out : Tables) (owner : Owner) (sock : SockStat) : Tables :=
  let proto := sock.protoU8
  match endpoint sock.saLocal, endpoint sock.saPeer with
  | some (sa, sp), some (da, dp) =>
    { out with exact := out.exact.insert ⟨proto, sa, sp, da, dp⟩ owner }
  | some (sa, sp), none =>
    if isUnspecified sa then out.addPort (proto, sp) owner
    else (out.addLocal (proto, sa, sp) owner).addPort (proto, sp) owner
  | none, _ => out

/-- The socket of a file, if it is one and the kernel tells. -/
def File.socket (f : File) : Option SockStat := if f.fsType = fstTypeSocket then f.info else none

def Tables.addFile (owner : Owner) (out : Tables) (f : File) : Tables :=
  match f.socket with
  | some sock => out.addSocket owner sock
  | none => out

/-- The path, or a note that there is none to be had. -/
def Process.path (p : Process) : Str :=
  let unknown := "<unknown:".toList ++ utf8Lossy p.comm ++ ">".toList
  match p.pathname with
  | some bytes =>
    let s := utf8Lossy bytes
    if s = [] then unknown else s
  | none => unknown

def Process.owner (p : Process) : Owner := ⟨p.pid, utf8Lossy p.comm, p.path⟩

/-- Walk the files of a process, unless it has exited. -/
def Tables.addProcess (out : Tables) (p : Process) : Tables :=
  match p.files with
  | some files => files.foldl (Tables.addFile p.owner) out
  | none => out

/-- Full snapshot of sockets and their owning processes, across all three tiers. -/
def snapshot (m : Machine) : Tables :=
  match m.procs with
  | some procs => procs.foldl Tables.addProcess .default
  | none => .default

/-! ## what the walk meets -/

def Process.sockets (p : Process) : List SockStat := (p.files.getD []).filterMap File.socket

def Machine.processes (m : Machine) : List Process := m.procs.getD []

/-- Every socket that a file of a process is, with the owner of that process. -/
def Machine.sockets (m : Machine) : List (Owner × SockStat) :=
  m.processes.flatMap fun p => p.sockets.map fun s => (p.owner, s)

theorem foldl_addFile (o : Owner) (out : Tables) (files : List File) :
    files.foldl (Tables.addFile o) out =
      (files.filterMap File.socket).foldl (fun out s => out.addSocket o s) out := by
  induction files generalizing out with
  | nil => rfl
  | cons f files ih =>
      rw [List.foldl_cons, ih, Tables.addFile]
      cases hf : f.socket with
      | none => rw [List.filterMap_cons_none hf]
      | some s => rw [List.filterMap_cons_some hf, List.foldl_cons]

theorem addProcess_eq (out : Tables) (p : Process) : out.addProcess p =
    (p.sockets.map fun s => (p.owner, s)).foldl (fun out x => out.addSocket x.1 x.2) out := by
  rw [Tables.addProcess, List.foldl_map, Process.sockets]
  cases p.files with
  | none => rfl
  | some files => exact foldl_addFile p.owner out files

/-- The nested walk is one over the sockets. -/
theorem snapshot_eq (m : Machine) :
    snapshot m = m.sockets.foldl (fun out x => out.addSocket x.1 x.2) .default := by
  have hwalk : ∀ procs : List Process, ∀ out : Tables, procs.foldl Tables.addProcess out =
      (procs.flatMap fun p => p.sockets.map fun s => (p.owner, s)).foldl
        (fun out x => out.addSocket x.1 x.2) out := by
    intro procs
    induction procs with
    | nil => exact fun _ => rfl
    | cons p procs ih =>
        intro out
        rw [List.foldl_cons, List.flatMap_cons, List.foldl_append, ih, addProcess_eq]
  rw [snapshot, Machine.sockets, Machine.processes]
  cases m.procs with
  | none => rfl
  | some procs => exact hwalk procs .default

/-! ## the claims of a socket -/

namespace SockStat

/-- The tuple of a connected socket. -/
def exactKey (s : SockStat) : Option Tuple :=
  match endpoint s.saLocal, endpoint s.saPeer with
  | some (sa, sp), some (da, dp) => some ⟨s.protoU8, sa, sp, da, dp⟩
  | _, _ => none

/-- The address and the port of a socket that is bound and not connected. -/
def bound (s : SockStat) : Option (IpAddr × UInt16) :=
  match endpoint s.saLocal, endpoint s.saPeer with
  | some e, none => some e
  | _, _ => none

def localKey (s : SockStat) : Option (UInt8 × IpAddr × UInt16) :=
  s.bound.bind fun e => if isUnspecified e.1 then none else some (s.protoU8, e.1, e.2)

def portKey (s : SockStat) : Option (UInt8 × UInt16) := s.bound.map fun e => (s.protoU8, e.2)

end SockStat

/-- The claims that sockets make through one kind of key. -/
def claims {κ : Type} (key : SockStat → Option κ) (ss : List (Owner × SockStat)) :
    List (κ × Owner) :=
  ss.filterMap fun x => (key x.2).map fun k => (k, x.1)

section

variable {κ : Type} {key : SockStat → Option κ} {ss : List (Owner × SockStat)} {k : κ} {o : Owner}
  {s : SockStat}

@[simp] theorem mem_claims : (k, o) ∈ claims key ss ↔ ∃ s, (o, s) ∈ ss ∧ key s = some k := by
  simp only [claims, List.mem_filterMap, Option.map_eq_some_iff, Prod.mk.injEq, Prod.exists]
  constructor
  · rintro ⟨o', s, hs, k', hk, rfl, rfl⟩
    exact ⟨s, hs, hk⟩
  · rintro ⟨s, hs, hk⟩
    exact ⟨o, s, hs, k, hk, rfl, rfl⟩

theorem claims_snoc_some (hk : key s = some k) :
    claims key (ss ++ [(o, s)]) = claims key ss ++ [(k, o)] := by
  simp [claims, hk]

theorem claims_snoc_none (hk : key s = none) : claims key (ss ++ [(o, s)]) = claims key ss := by
  simp [claims, hk]

end

/-- The tables hold the claims of the sockets `ss`, tier by tier. -/
structure Tables.Holds (ss : List (Owner × SockStat)) (tb : Tables) : Prop where
  exact : Claims.Stores (claims SockStat.exactKey ss) tb.exact
  locals : Claims.Records Owner.pid (claims SockStat.localKey ss) tb.locals
  ports : Claims.Records Owner.pid (claims SockStat.portKey ss) tb.ports

theorem Tables.holds_default : Tables.Holds [] .default :=
  ⟨Claims.stores_empty, Claims.records_empty, Claims.records_empty⟩

/-- One more socket. -/
theorem Tables.Holds.addSocket {ss : List (Owner × SockStat)} {tb : Tables} (h : tb.Holds ss)
    (o : Owner) (s : SockStat) : (tb.addSocket o s).Holds (ss ++ [(o, s)]) := by
  unfold Tables.addSocket
  cases hl : endpoint s.saLocal with
  | none =>
      -- unbound: no claim at all
      have hexact : s.exactKey = none := by rw [SockStat.exactKey, hl]
      have hbound : s.bound = none := by rw [SockStat.bound, hl]
      have hlocal : s.localKey = none := by rw [SockStat.localKey, hbound]; rfl
      have hport : s.portKey = none := by rw [SockStat.portKey, hbound]; rfl
      constructor
      · rw [claims_snoc_none hexact]; exact h.exact
      · rw [claims_snoc_none hlocal]; exact h.locals
      · rw [claims_snoc_none hport]; exact h.ports
  | some l =>
      cases hp : endpoint s.saPeer with
      | some r =>
          have hexact : s.exactKey = some ⟨s.protoU8, l.1, l.2, r.1, r.2⟩ := by
            rw [SockStat.exactKey, hl, hp]
          have hbound : s.bound = none := by rw [SockStat.bound, hl, hp]
          have hlocal : s.localKey = none := by rw [SockStat.localKey, hbound]; rfl
          have hport : s.portKey = none := by rw [SockStat.portKey, hbound]; rfl
          constructor
          · rw [claims_snoc_some hexact]; exact h.exact.insert _ _
          · rw [claims_snoc_none hlocal]; exact h.locals
          · rw [claims_snoc_none hport]; exact h.ports
      | none =>
          have hexact : s.exactKey = none := by rw [SockStat.exactKey, hl, hp]
          have hbound : s.bound = some l := by rw [SockStat.bound, hl, hp]
          have hport : s.portKey = some (s.protoU8, l.2) := by
            rw [SockStat.portKey, hbound]; rfl
          dsimp only
          split
          · rename_i hun
            have hlocal : s.localKey = none := by
              rw [SockStat.localKey, hbound, Option.bind_some, if_pos hun]
            constructor
            · rw [claims_snoc_none hexact]; exact h.exact
            · rw [claims_snoc_none hlocal]; exact h.locals
            · rw [claims_snoc_some hport]; exact h.ports.add _ _
          · rename_i hun
            have hlocal : s.localKey = some (s.protoU8, l.1, l.2) := by
              rw [SockStat.localKey, hbound, Option.bind_some, if_neg hun]
            constructor
            · rw [claims_snoc_none hexact]; exact h.exact
            · rw [claims_snoc_some hlocal]; exact h.locals.add _ _
            · rw [claims_snoc_some hport]; exact h.ports.add _ _

/-- What a snapshot holds. -/
theorem snapshot_holds (m : Machine) : (snapshot m).Holds m.sockets := by
  have hwalk : ∀ ss ss' : List (Owner × SockStat), ∀ tb : Tables, tb.Holds ss →
      (ss'.foldl (fun out x => out.addSocket x.1 x.2) tb).Holds (ss ++ ss') := by
    intro ss ss'
    induction ss' generalizing ss with
    | nil =>
        intro tb h
        rw [List.append_nil]
        exact h
    | cons x ss' ih =>
        intro tb h
        rw [List.foldl_cons, List.append_cons]
        exact ih _ _ (h.addSocket x.1 x.2)
  rw [snapshot_eq]
  exact hwalk [] m.sockets .default Tables.holds_default

end Pfsnitch.Procinfo
