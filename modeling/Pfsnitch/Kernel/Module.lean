import Pfsnitch.Lib.HashTable
import Pfsnitch.Lib.IpAddr

/-!
# Pfsnitch.Kernel.Module

The kernel module: the verdict cache, the queue of upcall requests and the
operations the device offers (`kmod/mac_pfsnitch.c`).

An address stands for the family and the address bytes of that family, which
are the only ones the module hashes and compares.  Ports are in host order.
A path is the bytes of a C string, without the final NUL.
-/

namespace Pfsnitch

open Lib

/-- `PFSNITCH_V_ALLOW` and `PFSNITCH_V_DENY`. -/
inductive KVerdict where
  | allow
  | deny
deriving DecidableEq, Repr

/-- `security.mac.pfsnitch.failmode`: the verdict when the daemon does not answer. -/
inductive FailMode where
  | fopen
  | fclosed
deriving DecidableEq, Repr

def IPPROTO_TCP : UInt8 := 6
def IPPROTO_UDP : UInt8 := 17

/-- The address bytes the module keys on. -/
def addrBytes : IpAddr → List UInt8
  | .v4 a => a.octets
  | .v6 a => a.octets

/-! ## the verdict cache -/

/-- What a cached verdict is filed under. -/
structure VKey where
  proto : UInt8
  addr : IpAddr
  fport : UInt16
  path : List UInt8
deriving DecidableEq, Repr

def PFSN_VHASH : Nat := 1024
def PFSN_VMAX : Nat := 8192
def PFSN_REQ_MAX : Nat := 2048
def PFSN_REQ_GCAGE : Nat := 150

/-- One round of FNV-1a. -/
def fnv1a (h : UInt32) (b : UInt8) : UInt32 := (h ^^^ b.toUInt32) * 16777619

/-- `pfsn_vhash`; the port's bytes in network order. -/
def vhash (k : VKey) : Nat :=
  let h := fnv1a 2166136261 k.proto
  let h := fnv1a h (UInt8.ofNat (k.fport.toNat / 256))
  let h := fnv1a h (UInt8.ofNat k.fport.toNat)
  ((addrBytes k.addr).foldl fnv1a h).toNat % PFSN_VHASH

abbrev VCache := Table VKey KVerdict

/-- `pfsn_verdict_lookup`. -/
def VCache.lookup (t : VCache) (k : VKey) : Option KVerdict := t.find vhash k

/-- `pfsn_cache_insert`; `memory` tells whether `malloc` succeeds. -/
def VCache.cacheInsert (t : VCache) (memory : Bool) (k : VKey) (v : KVerdict) : VCache :=
  -- pathlen counts the NUL
  if k.path.length + 1 > 1024 then t else t.insert vhash PFSN_VMAX memory k v

/-- With a path that fits, the verdict is filed if the table accepts it. -/
theorem VCache.lookup_cacheInsert_of_fits {k : VKey} (hfits : k.path.length < 1024) (t : VCache)
    (memory : Bool) (k' : VKey) (v : KVerdict) :
    (t.cacheInsert memory k v).lookup k' =
      if k' = k ∧ t.Accepts vhash PFSN_VMAX memory k then some v else t.lookup k' := by
  rw [cacheInsert, if_neg (by omega), lookup, Table.find_insert]
  rfl

/-- An insertion changes no lookup but that of its key, which then finds the verdict. -/
theorem VCache.lookup_cacheInsert (t : VCache) (memory : Bool) (k k' : VKey) (v : KVerdict) :
    (t.cacheInsert memory k v).lookup k' = t.lookup k' ∨
      k' = k ∧ (t.cacheInsert memory k v).lookup k' = some v := by
  rw [cacheInsert]
  split
  · exact .inl rfl
  · rw [lookup, Table.find_insert]
    split
    · rename_i hk
      exact .inr ⟨hk.1, rfl⟩
    · exact .inl rfl

/-! ## upcall requests -/

/-- `struct pfsn_req`. -/
structure Req where
  id : Nat
  key : VKey
  nonblock : Bool
  delivered : Bool
  pid : Int
  uid : UInt32
  born : Nat
deriving DecidableEq, Repr

/-- The module's state. -/
structure KMod where
  cache : VCache := Table.empty
  reqs : List Req := []
  nextId : Nat := 1
  nreq : Nat := 0
  unloading : Bool := false
  upcallOn : Bool := false
  failmode : FailMode := .fopen

/-- `struct pfsn_info`: the creator of a socket, as its label records it. -/
structure PfsnInfo where
  pid : Int
  uid : UInt32
  path : List UInt8
deriving DecidableEq, Repr

/-- What the connect hook returns: 0, `EPERM` or `EAGAIN`. -/
inductive HookResult where
  | pass
  | eperm
  | eagain
deriving DecidableEq, Repr

namespace KMod

/-- `pfsn_failverdict`. -/
def failVerdict (k : KMod) : HookResult :=
  match k.failmode with
  | .fclosed => .eperm
  | .fopen => .pass

/-- `pfsn_req_gc`: free requests the daemon never answered. -/
def reqGc (k : KMod) (now : Nat) : KMod :=
  let kept := k.reqs.filter fun r => !decide (now - r.born > PFSN_REQ_GCAGE)
  { k with reqs := kept, nreq := k.nreq - (k.reqs.length - kept.length) }

/-- The request `pfsn_upcall` queues for a miss. -/
def newReq (k : KMod) (key : VKey) (info : PfsnInfo) (nonblock : Bool) (now : Nat) : Req where
  id := k.nextId
  key := key
  nonblock := nonblock
  delivered := false
  pid := info.pid
  uid := info.uid
  born := now

/-- `pfsn_upcall`: queue a miss for the daemon. -/
def upcall (k : KMod) (proto : UInt8) (addr : IpAddr) (fport : UInt16) (info : PfsnInfo)
    (nonblock : Bool) (memory : Bool) (now : Nat) : HookResult × KMod :=
  let key : VKey := ⟨proto, addr, fport, info.path⟩
  if info.path = [] ∨ info.path.length ≥ 1024 then (.pass, k) -- nothing to key on
  else if k.unloading then (k.failVerdict, k)
  else if k.reqs.any fun r => r.key = key then (.eagain, k) -- already asked
  else if k.nreq ≥ PFSN_REQ_MAX then (k.failVerdict, k)
  else
    let k := k.reqGc now
    if !memory then (k.failVerdict, k)
    else (.eagain,
      { k with
        reqs := k.reqs ++ [k.newReq key info nonblock now]
        nextId := k.nextId + 1
        nreq := k.nreq + 1 })

/-- `pfsn_resolve`: cache the verdict of a request and drop the request. -/
def resolve (k : KMod) (id : Nat) (v : KVerdict) (memory : Bool) : KMod :=
  match k.reqs.find? fun r => r.id = id with
  | some r =>
    { k with
      cache := k.cache.cacheInsert memory r.key v
      reqs := k.reqs.eraseP fun r => r.id = id
      nreq := k.nreq - 1 }
  | none => k

/-- `PFSNITCH_VERDICT_PUSH`; a field that is no C string or is empty is not
kept, nor is a protocol the hook never asks about. -/
def verdictPush (k : KMod) (proto : UInt8) (addr : IpAddr) (fport : UInt16) (v : KVerdict)
    (path : List UInt8) (memory : Bool) : KMod :=
  let path := path.takeWhile (· ≠ 0)
  if proto ≠ IPPROTO_TCP ∧ proto ≠ IPPROTO_UDP then k
  else if path = [] ∨ path.length ≥ 1024 then k
  else { k with cache := k.cache.cacheInsert memory ⟨proto, addr, fport, path⟩ v }

/-- `PFSNITCH_VERDICT_FLUSH`. -/
def verdictFlush (k : KMod) : KMod := { k with cache := Table.empty }

/-- `PFSNITCH_UPCALL_SET`. -/
def upcallSet (k : KMod) (on : Bool) : KMod := { k with upcallOn := on }

/-- `pfsn_dev_close`: the last close turns the upcall off. -/
def devClose (k : KMod) : KMod := { k with upcallOn := false }

/-- A `read()` by the daemon: end of file, a request to deliver, or nothing
yet. -/
inductive ReadResult where
  | eof
  | event (r : Req)
  | wait
deriving DecidableEq, Repr

/-- `pfsn_read`, up to the copy to the reader. -/
def read (k : KMod) : ReadResult × KMod :=
  if k.unloading ∨ !k.upcallOn then (.eof, k)
  else
    match k.reqs.find? fun r => !r.delivered with
    | some r =>
      (.event r,
        { k with reqs := k.reqs.map fun s => if s.id = r.id then { s with delivered := true } else s })
    | none => (.wait, k)

/-- Reading touches the queue of requests only. -/
theorem read_frame (k : KMod) :
    k.read.2.cache = k.cache ∧ k.read.2.upcallOn = k.upcallOn := by
  unfold read
  repeat' split
  all_goals exact ⟨rfl, rfl⟩

/-- With the upcall off there is nothing to read. -/
theorem read_of_off {k : KMod} (h : k.upcallOn = false) : k.read = (.eof, k) := by
  simp [read, h]

/-- Resolving inserts under the key of a request, or changes nothing. -/
theorem resolve_cases (k : KMod) (id : Nat) (v : KVerdict) (memory : Bool) :
    k.resolve id v memory = k ∨ ∃ r ∈ k.reqs, r.id = id ∧
      (k.resolve id v memory).cache = k.cache.cacheInsert memory r.key v ∧
      (k.resolve id v memory).upcallOn = k.upcallOn ∧
      ∀ s ∈ (k.resolve id v memory).reqs, s ∈ k.reqs := by
  unfold resolve
  cases hr : k.reqs.find? fun r => decide (r.id = id) with
  | none => exact .inl rfl
  | some r =>
      have hid : r.id = id := by simpa using List.find?_some hr
      exact .inr ⟨r, List.mem_of_find?_eq_some hr, hid, rfl, rfl,
        fun s hs => List.mem_of_mem_eraseP hs⟩

/-- A push inserts one entry, or nothing. -/
theorem verdictPush_cases (k : KMod) (proto : UInt8) (addr : IpAddr) (fport : UInt16)
    (v : KVerdict) (path : List UInt8) (memory : Bool) :
    k.verdictPush proto addr fport v path memory = k ∨
      k.verdictPush proto addr fport v path memory =
        { k with
          cache := k.cache.cacheInsert memory ⟨proto, addr, fport, path.takeWhile (· ≠ 0)⟩ v } := by
  unfold verdictPush
  extract_lets p
  split
  · exact .inl rfl
  · split
    · exact .inl rfl
    · exact .inr rfl

end KMod

end Pfsnitch
