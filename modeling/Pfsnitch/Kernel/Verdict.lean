import Pfsnitch.Kernel.Module
import Pfsnitch.Lib.BoundedMap
import Mathlib.Data.List.Nodup

/-!
# Pfsnitch.Kernel.Verdict

The verdict cache byte by byte: the fixed 16-byte address field, of which IPv4
uses four, ports in network order, paths with their NUL, and verdicts as the
numbers of the ABI.

`Vtab.abs` forgets all that; what is left is the cache of `Pfsnitch.Kernel.Module`
(`Vtab.abs_cacheInsert`, `Vtab.lookup_eq`).  `cache_refines` says that the cache
is a bounded finite map.
-/

namespace Pfsnitch

open Lib

/-! ## the data -/

/-- `uint8_t faddr[16]`. -/
abbrev Faddr := { bs : List UInt8 // bs.length = 16 }

/-- A port in network byte order, as a little-endian machine reads it, in host order. -/
def ntohs (x : UInt16) : UInt16 := UInt16.ofNat (x.toNat % 256 * 256 + x.toNat / 256)

/-- The bytes of a C string, up to its NUL. -/
def cstring (p : List UInt8) : List UInt8 := p.takeWhile (· ≠ 0)

theorem cstring_terminated (p : List UInt8) : cstring (cstring p ++ [0]) = cstring p := by
  have hbytes : ∀ b ∈ cstring p, decide (b ≠ 0) = true := fun b hb =>
    List.mem_takeWhile_imp (p := fun b => decide (b ≠ 0)) hb
  rw [cstring, List.takeWhile_append_of_pos hbytes]
  simp

/-- How many address bytes a family has. -/
def familyBytes (af : UInt8) : Nat := if af = 4 then 4 else 16

/-- `struct pfsn_verdict`. -/
structure PfsnVerdict where
  af : UInt8
  proto : UInt8
  verdict : UInt8
  fport : UInt16
  faddr : Faddr
  pathlen : UInt16
  path : List UInt8
deriving DecidableEq

/-- `pfsn_vtab` and `pfsn_vcount`. -/
structure Vtab where
  bucket : Nat → List PfsnVerdict
  vcount : Nat

def PFSNITCH_ATTR_VERSION : UInt32 := 1
def PFSNITCH_V_ALLOW : UInt8 := 1
def PFSNITCH_V_DENY : UInt8 := 2

/-- `struct pfsnitch_verdict`, the argument of `PFSNITCH_VERDICT_PUSH`. -/
structure PfsnitchVerdict where
  version : UInt32
  af : UInt8
  proto : UInt8
  fport : UInt16
  faddr : Faddr
  verdict : UInt8
  path : { bs : List UInt8 // bs.length = 1024 }

/-- `struct pfsn_req`, as far as the cache reads it: `pfsn_upcall` queues no
request without a path, nor with one that does not fit. -/
structure PfsnReq where
  af : UInt8
  proto : UInt8
  fport : UInt16
  faddr : Faddr
  pathlen : UInt16
  path : List UInt8
  family : af = 4 ∨ af = 6
  terminated : path = cstring path ++ [0]
  named : cstring path ≠ []
  counted : pathlen.toNat = path.length
  fits : path.length ≤ 1024

/-! ## the operations -/

/-- `pfsn_vhash`. -/
def pfsnVhash (af proto : UInt8) (faddr : Faddr) (fport : UInt16) : Nat :=
  let h := fnv1a 2166136261 proto
  let h := fnv1a h (fport &&& 0xff).toUInt8
  let h := fnv1a h (fport >>> 8).toUInt8
  ((faddr.1.take (familyBytes af)).foldl fnv1a h &&& UInt32.ofNat (PFSN_VHASH - 1)).toNat

/-- The part of the key that both loops compare alike. -/
def PfsnVerdict.sameDest (v : PfsnVerdict) (af proto : UInt8) (faddr : Faddr) (fport : UInt16) :
    Bool :=
  v.af = af ∧ v.proto = proto ∧ v.fport = fport ∧
    v.faddr.1.take (familyBytes af) = faddr.1.take (familyBytes af)

namespace Vtab

def empty : Vtab := ⟨fun _ => [], 0⟩

/-- `pfsn_verdict_lookup`: the paths are compared as C strings; 0 is a miss. -/
def lookup (t : Vtab) (af proto : UInt8) (faddr : Faddr) (fport : UInt16) (path : List UInt8) :
    UInt8 :=
  match (t.bucket (pfsnVhash af proto faddr fport)).find? fun v =>
      v.sameDest af proto faddr fport && cstring v.path == cstring path with
  | some v => v.verdict
  | none => 0

/-- Set the verdict of the first entry that matches. -/
def updateFirst (p : PfsnVerdict → Bool) (verdict : UInt8) : List PfsnVerdict → List PfsnVerdict
  | [] => []
  | v :: rest => if p v then { v with verdict } :: rest else v :: updateFirst p verdict rest

/-- `pfsn_cache_insert`: the paths are compared by length and bytes; `memory`
tells whether `malloc` succeeds. -/
def cacheInsert (t : Vtab) (memory : Bool) (af proto : UInt8) (faddr : Faddr) (fport : UInt16)
    (verdict : UInt8) (path : List UInt8) (plen : Nat) : Vtab :=
  if plen = 0 ∨ plen > 1024 then t
  else
    let b := pfsnVhash af proto faddr fport
    let hit (v : PfsnVerdict) : Bool :=
      v.sameDest af proto faddr fport && v.pathlen.toNat == plen &&
        v.path.take plen == path.take plen
    if (t.bucket b).any hit then
      { t with bucket := Function.update t.bucket b (updateFirst hit verdict (t.bucket b)) }
    else if t.vcount ≥ PFSN_VMAX then t
    else if memory then
      { bucket := Function.update t.bucket b
          (⟨af, proto, verdict, fport, faddr, UInt16.ofNat plen, path.take plen⟩ :: t.bucket b)
        vcount := t.vcount + 1 }
    else t

/-- `PFSNITCH_VERDICT_PUSH`, the checks of `pfsn_ioctl` included. -/
def push (t : Vtab) (pv : PfsnitchVerdict) : Vtab :=
  if pv.version ≠ PFSNITCH_ATTR_VERSION then t
  else if pv.af ≠ 4 ∧ pv.af ≠ 6 then t
  else if pv.proto ≠ IPPROTO_TCP ∧ pv.proto ≠ IPPROTO_UDP then t
  else if pv.verdict ≠ PFSNITCH_V_ALLOW ∧ pv.verdict ≠ PFSNITCH_V_DENY then t
  else
    let plen := (cstring pv.path.1).length
    if plen = 0 ∨ plen ≥ 1024 then t
    else t.cacheInsert true pv.af pv.proto pv.faddr pv.fport pv.verdict pv.path.1 (plen + 1)

/-- `PFSNITCH_RESOLVE` of a request that is queued. -/
def resolve (t : Vtab) (version : UInt32) (verdict : UInt8) (r : PfsnReq) : Vtab :=
  if version ≠ PFSNITCH_ATTR_VERSION then t
  else if verdict ≠ PFSNITCH_V_ALLOW ∧ verdict ≠ PFSNITCH_V_DENY then t
  else t.cacheInsert true r.af r.proto r.faddr r.fport verdict r.path r.pathlen.toNat

end Vtab

/-- What changes the cache. -/
inductive CacheEvent where
  | push (pv : PfsnitchVerdict)
  | resolve (version : UInt32) (verdict : UInt8) (r : PfsnReq)
  | flush

/-- One change. -/
def Vtab.step (t : Vtab) : CacheEvent → Vtab
  | .push pv => t.push pv
  | .resolve version verdict r => t.resolve version verdict r
  | .flush => .empty

/-- What the hook makes of a destination; for IPv4 twelve bytes of the field are
whatever was on the stack. -/
def hookAddr (addr : IpAddr) (stack : Faddr) : UInt8 × Faddr :=
  match addr with
  | .v4 a => (4, ⟨a.octets ++ stack.1.drop 4, by simp [Ipv4Addr.octets, stack.2]⟩)
  | .v6 a => (6, ⟨a.octets, a.size⟩)

theorem hookAddr_family (addr : IpAddr) (stack : Faddr) :
    (hookAddr addr stack).1 = 4 ∨ (hookAddr addr stack).1 = 6 := by
  cases addr with
  | v4 a => exact .inl rfl
  | v6 a => exact .inr rfl

/-- The request `pfsn_upcall` queues for a miss. -/
def pfsnUpcall (stack : Faddr) (proto : UInt8) (addr : IpAddr) (fport : UInt16)
    (path : List UInt8) : Option PfsnReq :=
  let plen := (cstring path).length
  if h : plen = 0 ∨ plen ≥ 1024 then none -- nothing to key on
  else
    some
      { af := (hookAddr addr stack).1
        proto := proto
        fport := fport
        faddr := (hookAddr addr stack).2
        pathlen := UInt16.ofNat (plen + 1)
        path := cstring path ++ [0]
        family := hookAddr_family addr stack
        terminated := by rw [cstring_terminated]
        named := by
          rw [cstring_terminated, ne_eq, ← List.length_eq_zero_iff]
          exact (not_or.mp h).1
        counted := by
          have hlt := (not_or.mp h).2
          rw [UInt16.toNat_ofNat', List.length_append, List.length_singleton]
          omega
        fits := by
          have hlt := (not_or.mp h).2
          rw [List.length_append, List.length_singleton]
          omega }

/-! ## what it stands for -/

/-- The address a family and a field stand for. -/
def addrOf (af : UInt8) (faddr : Faddr) : IpAddr :=
  if af = 4 then .v4 ⟨faddr.1.getD 0 0, faddr.1.getD 1 0, faddr.1.getD 2 0, faddr.1.getD 3 0⟩
  else .v6 ⟨faddr.1, faddr.2⟩

/-- The key a destination and a path stand for. -/
def keyOf (af proto : UInt8) (faddr : Faddr) (fport : UInt16) (path : List UInt8) : VKey :=
  ⟨proto, addrOf af faddr, ntohs fport, cstring path⟩

/-- The verdict a number stands for. -/
def kverdictOf (verdict : UInt8) : KVerdict := if verdict = PFSNITCH_V_ALLOW then .allow else .deny

/-- The number of a verdict; 0 is none. -/
def verdictCode : Option KVerdict → UInt8
  | some .allow => PFSNITCH_V_ALLOW
  | some .deny => PFSNITCH_V_DENY
  | none => 0

/-- The key an entry is filed under. -/
def PfsnVerdict.key (v : PfsnVerdict) : VKey := keyOf v.af v.proto v.faddr v.fport v.path

/-- The key and the verdict that a change brings in, if it brings in any. -/
def CacheEvent.entry : CacheEvent → Option (VKey × KVerdict)
  | .push pv =>
    if pv.version = PFSNITCH_ATTR_VERSION ∧ (pv.af = 4 ∨ pv.af = 6) ∧
        (pv.proto = IPPROTO_TCP ∨ pv.proto = IPPROTO_UDP) ∧
        (pv.verdict = PFSNITCH_V_ALLOW ∨ pv.verdict = PFSNITCH_V_DENY) ∧
        cstring pv.path.1 ≠ [] ∧ (cstring pv.path.1).length < 1024 then
      some (keyOf pv.af pv.proto pv.faddr pv.fport pv.path.1, kverdictOf pv.verdict)
    else none
  | .resolve version verdict r =>
    if version = PFSNITCH_ATTR_VERSION ∧
        (verdict = PFSNITCH_V_ALLOW ∨ verdict = PFSNITCH_V_DENY) then
      some (keyOf r.af r.proto r.faddr r.fport r.path, kverdictOf verdict)
    else none
  | .flush => none

/-- The cache as the map it is meant to be. -/
abbrev VMap := BoundedMap VKey KVerdict PFSN_VMAX

/-- A change of the map. -/
def VMap.step (m : VMap) (ev : CacheEvent) : VMap :=
  match ev with
  | .flush => .empty
  | .push _ | .resolve .. =>
    match ev.entry with
    | some (k, v) => m.insert k v
    | none => m

/-! ## the abstraction -/

/-- An entry as the module makes them. -/
structure PfsnVerdict.Valid (v : PfsnVerdict) : Prop where
  family : v.af = 4 ∨ v.af = 6
  settled : v.verdict = PFSNITCH_V_ALLOW ∨ v.verdict = PFSNITCH_V_DENY
  terminated : v.path = cstring v.path ++ [0]
  counted : v.pathlen.toNat = v.path.length

/-- What an entry says. -/
def PfsnVerdict.entry (v : PfsnVerdict) : VKey × KVerdict := (v.key, kverdictOf v.verdict)

/-- The table without the encoding. -/
def Vtab.abs (t : Vtab) : VCache := ⟨fun b => (t.bucket b).map PfsnVerdict.entry, t.vcount⟩

/-- Every entry of the table is as the module makes them. -/
def Vtab.Valid (t : Vtab) : Prop := ∀ b, ∀ v ∈ t.bucket b, v.Valid

variable {af proto verdict : UInt8} {faddr faddr' : Faddr} {fport : UInt16} {path : List UInt8}

theorem ntohs_high (x : UInt16) :
    (x &&& 0xff).toUInt8 = UInt8.ofNat ((ntohs x).toNat / 256) := by
  apply UInt8.toNat_inj.mp
  have hx : x.toNat < 65536 := x.toNat_lt
  have hlow (n : Nat) : n &&& 255 = n % 256 := Nat.and_two_pow_sub_one_eq_mod n 8
  have hhigh : x.toNat / 256 < 256 := by omega
  have hswap : (x.toNat % 256 * 256 + x.toNat / 256) % 65536 / 256 = x.toNat % 256 := by
    generalize x.toNat / 256 = q at hhigh
    omega
  simp [ntohs, hlow, hswap]

theorem ntohs_low (x : UInt16) : (x >>> 8).toUInt8 = UInt8.ofNat (ntohs x).toNat := by
  apply UInt8.toNat_inj.mp
  simp [ntohs, Nat.shiftRight_eq_div_pow]

theorem ntohs_injective {x y : UInt16} (h : ntohs x = ntohs y) : x = y := by
  have hx := x.toNat_lt
  have hy := y.toNat_lt
  have h := congrArg UInt16.toNat h
  simp only [ntohs, UInt16.toNat_ofNat'] at h
  apply UInt16.toNat_inj.mp
  omega

/-- The bytes of the family are those of the address. -/
theorem addrBytes_addrOf (haf : af = 4 ∨ af = 6) (faddr : Faddr) :
    addrBytes (addrOf af faddr) = faddr.1.take (familyBytes af) := by
  obtain ⟨bs, hlen⟩ := faddr
  obtain rfl | rfl := haf
  · match bs, hlen with
    | a :: b :: c :: d :: _, _ => rfl
  · exact (List.take_of_length_le (Nat.le_of_eq hlen)).symm

theorem addrOf_eq_iff {af' : UInt8} (haf : af = 4 ∨ af = 6) (haf' : af' = 4 ∨ af' = 6) :
    addrOf af' faddr' = addrOf af faddr ↔
      af' = af ∧ faddr'.1.take (familyBytes af) = faddr.1.take (familyBytes af) := by
  constructor
  · intro h
    have hsame : af' = af := by
      obtain rfl | rfl := haf <;> obtain rfl | rfl := haf' <;> first | rfl | cases h
    subst hsame
    exact ⟨rfl, by rw [← addrBytes_addrOf haf, ← addrBytes_addrOf haf, h]⟩
  · rintro ⟨rfl, h⟩
    rw [← addrBytes_addrOf haf, ← addrBytes_addrOf haf] at h
    obtain ⟨bs, hlen⟩ := faddr
    obtain ⟨bs', hlen'⟩ := faddr'
    obtain rfl | rfl := haf
    · simp only [addrOf, addrBytes, Ipv4Addr.octets, if_pos, List.cons.injEq] at h ⊢
      grind
    · exact congrArg IpAddr.v6 (Ipv6Addr.mk.injEq .. |>.mpr h)

/-- Hashing the bytes of the family is hashing the address. -/
theorem pfsnVhash_eq (haf : af = 4 ∨ af = 6) :
    pfsnVhash af proto faddr fport = vhash ⟨proto, addrOf af faddr, ntohs fport, path⟩ := by
  have hmask (h : UInt32) : (h &&& UInt32.ofNat (PFSN_VHASH - 1)).toNat = h.toNat % PFSN_VHASH :=
    Nat.and_two_pow_sub_one_eq_mod h.toNat 10
  simp only [pfsnVhash, vhash]
  rw [addrBytes_addrOf haf, hmask, ntohs_high, ntohs_low]

theorem vhash_lt (k : VKey) : vhash k < PFSN_VHASH := Nat.mod_lt _ (by decide)

/-- The bytes a caller hands over as a path of length `plen`, the NUL included. -/
def Counted (path : List UInt8) (plen : Nat) : Prop :=
  path.take plen = cstring path ++ [0] ∧ plen = (cstring path).length + 1

/-- What both loops compare is the destination. -/
theorem PfsnVerdict.sameDest_iff {v : PfsnVerdict} (hv : v.Valid) (haf : af = 4 ∨ af = 6) :
    v.sameDest af proto faddr fport ↔
      v.proto = proto ∧ addrOf v.af v.faddr = addrOf af faddr ∧ ntohs v.fport = ntohs fport := by
  have hport : v.fport = fport ↔ ntohs v.fport = ntohs fport :=
    ⟨congrArg ntohs, ntohs_injective⟩
  rw [sameDest, decide_eq_true_iff, addrOf_eq_iff haf hv.family, hport]
  constructor
  · rintro ⟨hfamily, hproto, hfport, hbytes⟩
    exact ⟨hproto, ⟨hfamily, hbytes⟩, hfport⟩
  · rintro ⟨hproto, ⟨hfamily, hbytes⟩, hfport⟩
    exact ⟨hfamily, hproto, hfport, hbytes⟩

/-- Comparing C strings and comparing counted bytes are the same on paths that
end in their NUL. -/
theorem PfsnVerdict.samePath_iff {v : PfsnVerdict} (hv : v.Valid) {plen : Nat}
    (hpath : Counted path plen) :
    (v.pathlen.toNat = plen ∧ v.path.take plen = path.take plen) ↔
      cstring v.path = cstring path := by
  have hlen := congrArg List.length hv.terminated
  rw [List.length_append, List.length_singleton] at hlen
  constructor
  · rintro ⟨hcount, hbytes⟩
    rw [List.take_of_length_le (by rw [← hv.counted, hcount]), hpath.1, hv.terminated] at hbytes
    exact List.append_cancel_right hbytes
  · intro h
    have hcount : v.pathlen.toNat = plen := by rw [hv.counted, hpath.2, hlen, h]
    refine ⟨hcount, ?_⟩
    rw [List.take_of_length_le (by rw [← hv.counted, hcount]), hpath.1, hv.terminated, h]

/-- What a lookup looks for. -/
theorem PfsnVerdict.lookup_iff {v : PfsnVerdict} (hv : v.Valid) (haf : af = 4 ∨ af = 6) :
    (v.sameDest af proto faddr fport && cstring v.path == cstring path) ↔
      v.key = keyOf af proto faddr fport path := by
  rw [Bool.and_eq_true, sameDest_iff hv haf, beq_iff_eq, key, keyOf, keyOf, VKey.mk.injEq]
  tauto

/-- What an insertion looks for. -/
theorem PfsnVerdict.insert_iff {v : PfsnVerdict} (hv : v.Valid) (haf : af = 4 ∨ af = 6)
    {plen : Nat} (hpath : Counted path plen) :
    (v.sameDest af proto faddr fport && v.pathlen.toNat == plen &&
        v.path.take plen == path.take plen) ↔
      v.key = keyOf af proto faddr fport path := by
  rw [Bool.and_eq_true, Bool.and_eq_true, sameDest_iff hv haf, beq_iff_eq, beq_iff_eq, and_assoc,
    samePath_iff hv hpath, key, keyOf, keyOf, VKey.mk.injEq]
  tauto

/-! ## the buckets -/

theorem findIn_entry {p : PfsnVerdict → Bool} {k : VKey} {l : List PfsnVerdict}
    (hp : ∀ v ∈ l, p v ↔ v.key = k) :
    Table.findIn k (l.map PfsnVerdict.entry) =
      (l.find? p).map fun v => kverdictOf v.verdict := by
  induction l with
  | nil => rfl
  | cons v l ih =>
      have hv := hp v List.mem_cons_self
      rw [List.map_cons, PfsnVerdict.entry, Table.findIn, List.find?_cons]
      by_cases hk : v.key = k
      · rw [if_pos hk, hv.mpr hk]
        rfl
      · rw [if_neg hk, Bool.eq_false_iff.mpr fun h => hk (hv.mp h)]
        exact ih fun w hw => hp w (List.mem_cons_of_mem v hw)

theorem updateIn_entry {p : PfsnVerdict → Bool} {k : VKey} {l : List PfsnVerdict}
    (hp : ∀ v ∈ l, p v ↔ v.key = k) :
    Table.updateIn k (kverdictOf verdict) (l.map PfsnVerdict.entry) =
      (Vtab.updateFirst p verdict l).map PfsnVerdict.entry := by
  induction l with
  | nil => rfl
  | cons v l ih =>
      have hv := hp v List.mem_cons_self
      rw [List.map_cons, PfsnVerdict.entry, Table.updateIn, Vtab.updateFirst]
      by_cases hk : v.key = k
      · rw [if_pos hk, if_pos (hv.mpr hk)]
        rfl
      · rw [if_neg hk, if_neg fun h => hk (hv.mp h), ih fun w hw => hp w (List.mem_cons_of_mem v hw)]
        rfl

theorem mem_updateFirst {p : PfsnVerdict → Bool} {v : PfsnVerdict} {l : List PfsnVerdict}
    (h : v ∈ Vtab.updateFirst p verdict l) : v ∈ l ∨ ∃ w ∈ l, v = { w with verdict } := by
  induction l with
  | nil => exact absurd h List.not_mem_nil
  | cons w l ih =>
      rw [Vtab.updateFirst] at h
      split at h
      · obtain rfl | h := List.mem_cons.mp h
        · exact .inr ⟨w, List.mem_cons_self, rfl⟩
        · exact .inl (List.mem_cons_of_mem w h)
      · obtain rfl | h := List.mem_cons.mp h
        · exact .inl List.mem_cons_self
        · obtain h | ⟨u, hu, rfl⟩ := ih h
          · exact .inl (List.mem_cons_of_mem w h)
          · exact .inr ⟨u, List.mem_cons_of_mem w hu, rfl⟩

/-! ## the operations keep the encoding and forget it -/

/-- The number of a verdict stands for it. -/
theorem verdictCode_kverdictOf
    (h : verdict = PFSNITCH_V_ALLOW ∨ verdict = PFSNITCH_V_DENY) :
    verdictCode (some (kverdictOf verdict)) = verdict := by
  obtain rfl | rfl := h <;> rfl

namespace Vtab

variable {t : Vtab} {plen : Nat} {memory : Bool}

theorem valid_empty : empty.Valid := fun _ _ h => absurd h List.not_mem_nil

theorem abs_update (b : Nat) (l : List PfsnVerdict) (n : Nat) :
    (⟨Function.update t.bucket b l, n⟩ : Vtab).abs =
      ⟨Function.update t.abs.bucket b (l.map PfsnVerdict.entry), n⟩ := by
  unfold abs
  congr 1
  funext i
  by_cases hi : i = b
  · simp [hi]
  · simp [Function.update_of_ne hi]

theorem Valid.update (ht : t.Valid) {b : Nat} {l : List PfsnVerdict} (n : Nat)
    (hl : ∀ v ∈ l, v.Valid) : (⟨Function.update t.bucket b l, n⟩ : Vtab).Valid := by
  intro i v hv
  by_cases hi : i = b
  · subst hi
    simp only [Function.update_self] at hv
    exact hl v hv
  · simp only [Function.update_of_ne hi] at hv
    exact ht i v hv

/-- A lookup reads what the table stands for. -/
theorem lookup_eq (ht : t.Valid) (haf : af = 4 ∨ af = 6) :
    t.lookup af proto faddr fport path =
      verdictCode (t.abs.lookup (keyOf af proto faddr fport path)) := by
  have hhash : vhash (keyOf af proto faddr fport path) = pfsnVhash af proto faddr fport :=
    (pfsnVhash_eq haf).symm
  rw [VCache.lookup, Table.find, hhash]
  simp only [abs]
  rw [findIn_entry fun v hv => PfsnVerdict.lookup_iff (ht _ v hv) haf, lookup]
  split
  · rename_i v hv
    rw [hv, Option.map_some]
    exact (verdictCode_kverdictOf (ht _ v (List.mem_of_find?_eq_some hv)).settled).symm
  · rename_i hv
    rw [hv]
    rfl

/-- An insertion into the table is one into what it stands for. -/
theorem abs_cacheInsert (ht : t.Valid) (haf : af = 4 ∨ af = 6) (hpath : Counted path plen)
    (hfits : plen ≤ 1024) :
    (t.cacheInsert memory af proto faddr fport verdict path plen).abs =
      t.abs.cacheInsert memory (keyOf af proto faddr fport path) (kverdictOf verdict) := by
  have hhash : vhash (keyOf af proto faddr fport path) = pfsnVhash af proto faddr fport :=
    (pfsnVhash_eq haf).symm
  have hkey : ∀ v ∈ t.bucket (pfsnVhash af proto faddr fport),
      (v.sameDest af proto faddr fport && v.pathlen.toNat == plen &&
        v.path.take plen == path.take plen) ↔ v.key = keyOf af proto faddr fport path :=
    fun v hv => PfsnVerdict.insert_iff (ht _ v hv) haf hpath
  have hpos := hpath.2
  have hshort : ¬ (keyOf af proto faddr fport path).path.length + 1 > 1024 := by
    change ¬ (cstring path).length + 1 > 1024
    omega
  rw [VCache.cacheInsert, if_neg hshort, Table.insert, Table.find, hhash, cacheInsert,
    if_neg (by omega)]
  extract_lets b hit
  have hfound : (Table.findIn (keyOf af proto faddr fport path) (t.abs.bucket b)).isSome ↔
      (t.bucket b).any hit := by
    rw [abs, findIn_entry hkey, Option.isSome_map, List.find?_isSome, List.any_eq_true]
  by_cases hany : (t.bucket b).any hit
  · rw [if_pos hany, if_pos (hfound.mpr hany), abs_update, ← updateIn_entry hkey]
    rfl
  · rw [if_neg hany, if_neg (hfound.not.mpr hany), show t.abs.count = t.vcount from rfl]
    split
    · rfl
    · cases memory with
      | false => rfl
      | true =>
          have hnew : (⟨af, proto, verdict, fport, faddr, UInt16.ofNat plen, path.take plen⟩ :
              PfsnVerdict).entry = (keyOf af proto faddr fport path, kverdictOf verdict) := by
            rw [PfsnVerdict.entry, PfsnVerdict.key, keyOf, hpath.1, cstring_terminated, keyOf]
          rw [if_pos rfl, if_pos rfl, abs_update, List.map_cons, hnew]
          rfl

/-- An insertion keeps the encoding. -/
theorem valid_cacheInsert (ht : t.Valid) (haf : af = 4 ∨ af = 6) (hpath : Counted path plen)
    (hverdict : verdict = PFSNITCH_V_ALLOW ∨ verdict = PFSNITCH_V_DENY) (hfits : plen ≤ 1024) :
    (t.cacheInsert memory af proto faddr fport verdict path plen).Valid := by
  have hpos := hpath.2
  rw [cacheInsert, if_neg (by omega)]
  extract_lets b hit
  split
  · refine ht.update _ fun v hv => ?_
    obtain hv | ⟨w, hw, rfl⟩ := mem_updateFirst hv
    · exact ht _ v hv
    · have hvalid := ht _ w hw
      exact ⟨hvalid.family, hverdict, hvalid.terminated, hvalid.counted⟩
  · split
    · exact ht
    · split
      · refine ht.update _ fun v hv => ?_
        obtain rfl | hv := List.mem_cons.mp hv
        · have hlen := congrArg List.length hpath.1
          rw [List.length_append, List.length_singleton, ← hpos] at hlen
          refine ⟨haf, hverdict, ?_, ?_⟩
          · change path.take plen = cstring (path.take plen) ++ [0]
            rw [hpath.1, cstring_terminated]
          · change (UInt16.ofNat plen).toNat = (path.take plen).length
            rw [hlen, UInt16.toNat_ofNat', Nat.mod_eq_of_lt (by omega)]
        · exact ht _ v hv
      · exact ht

end Vtab

/-! ## the refinement -/

/-- The key of what the hook asks for. -/
def hookKey (proto : UInt8) (addr : IpAddr) (fport : UInt16) (path : List UInt8) : VKey :=
  ⟨proto, addr, ntohs fport, cstring path⟩

/-- What the hook gets for a destination. -/
def Vtab.hookLookup (t : Vtab) (stack : Faddr) (proto : UInt8) (addr : IpAddr) (fport : UInt16)
    (path : List UInt8) : UInt8 :=
  t.lookup (hookAddr addr stack).1 proto (hookAddr addr stack).2 fport path

/-- All entries of the table. -/
def Vtab.entries (t : Vtab) : List PfsnVerdict := (List.range PFSN_VHASH).flatMap t.bucket

/-- The table represents the map. -/
structure Vtab.Refines (t : Vtab) (m : VMap) : Prop where
  placed : ∀ b, ∀ v ∈ t.bucket b, b < PFSN_VHASH ∧ pfsnVhash v.af v.proto v.faddr v.fport = b
  distinct : (t.entries.map PfsnVerdict.key).Nodup
  counted : t.vcount = t.entries.length
  bounded : t.vcount ≤ PFSN_VMAX
  size : t.vcount = m.size
  lookup : ∀ stack proto addr fport path,
    t.hookLookup stack proto addr fport path = verdictCode (m.lookup (hookKey proto addr fport path))

/-- What the operations keep: the encoding, and the representation without it. -/
structure Vtab.Inv (t : Vtab) (m : VMap) : Prop where
  valid : t.Valid
  represents : t.abs.Represents vhash PFSN_VHASH m

theorem hookAddr_addrOf (addr : IpAddr) (stack : Faddr) :
    addrOf (hookAddr addr stack).1 (hookAddr addr stack).2 = addr := by
  cases addr with
  | v4 a => rfl
  | v6 a => rfl

/-- A field of which the C string leaves something over is counted with its NUL. -/
theorem counted_of_lt (h : (cstring path).length < path.length) :
    Counted path ((cstring path).length + 1) := by
  refine ⟨?_, rfl⟩
  induction path with
  | nil => exact absurd h (Nat.lt_irrefl 0)
  | cons b path ih =>
      by_cases hb : b = 0
      · simp [cstring, hb]
      · have hcons : cstring (b :: path) = b :: cstring path := by simp [cstring, hb]
        rw [hcons] at h ⊢
        rw [List.length_cons, List.take_succ_cons,
          ih (by simpa using h), List.cons_append]

namespace Vtab.Inv

variable {t : Vtab} {m : VMap} {plen : Nat}

theorem empty : Vtab.empty.Inv BoundedMap.empty := ⟨valid_empty, Table.represents_empty⟩

theorem cacheInsert (h : t.Inv m) (haf : af = 4 ∨ af = 6) (hpath : Counted path plen)
    (hverdict : verdict = PFSNITCH_V_ALLOW ∨ verdict = PFSNITCH_V_DENY) (hfits : plen ≤ 1024) :
    (t.cacheInsert true af proto faddr fport verdict path plen).Inv
      (m.insert (keyOf af proto faddr fport path) (kverdictOf verdict)) := by
  refine ⟨valid_cacheInsert h.valid haf hpath hverdict hfits, ?_⟩
  have hshort : ¬ (keyOf af proto faddr fport path).path.length + 1 > 1024 := by
    change ¬ (cstring path).length + 1 > 1024
    have hlen := hpath.2
    omega
  rw [abs_cacheInsert h.valid haf hpath hfits, VCache.cacheInsert, if_neg hshort]
  exact h.represents.insert (vhash_lt _) _

/-- Every change of the table is one of the map. -/
theorem step (h : t.Inv m) (ev : CacheEvent) : (t.step ev).Inv (m.step ev) := by
  cases ev with
  | push pv =>
      simp only [Vtab.step, VMap.step, CacheEvent.entry, Vtab.push]
      by_cases hok : pv.version = PFSNITCH_ATTR_VERSION ∧ (pv.af = 4 ∨ pv.af = 6) ∧
          (pv.proto = IPPROTO_TCP ∨ pv.proto = IPPROTO_UDP) ∧
          (pv.verdict = PFSNITCH_V_ALLOW ∨ pv.verdict = PFSNITCH_V_DENY) ∧
          cstring pv.path.1 ≠ [] ∧ (cstring pv.path.1).length < 1024
      · rw [if_pos hok]
        obtain ⟨hversion, haf, hproto, hverdict, hne, hlt⟩ := hok
        have hpos := List.length_pos_iff.mpr hne
        rw [if_neg (by simp [hversion]), if_neg (by tauto), if_neg (by tauto), if_neg (by tauto),
          if_neg (by omega)]
        have hsize := pv.path.2
        exact h.cacheInsert haf (counted_of_lt (by omega)) hverdict (by omega)
      · rw [if_neg hok]
        have hne : cstring pv.path.1 ≠ [] ↔ (cstring pv.path.1).length ≠ 0 := by
          rw [ne_eq, ne_eq, List.length_eq_zero_iff]
        rw [hne] at hok
        split_ifs <;> first | exact h | exact absurd (by grind) hok
  | resolve version verdict r =>
      simp only [Vtab.step, VMap.step, CacheEvent.entry, Vtab.resolve]
      by_cases hok : version = PFSNITCH_ATTR_VERSION ∧
          (verdict = PFSNITCH_V_ALLOW ∨ verdict = PFSNITCH_V_DENY)
      · rw [if_pos hok, if_neg (by simp [hok.1]), if_neg (by tauto), r.counted]
        have hlen := congrArg List.length r.terminated
        rw [List.length_append, List.length_singleton] at hlen
        have hpath : Counted r.path r.path.length :=
          ⟨by rw [List.take_length, ← r.terminated], hlen⟩
        exact h.cacheInsert r.family hpath hok.2 r.fits
      · rw [if_neg hok]
        split_ifs <;> first | exact h | exact absurd (by tauto) hok
  | flush => exact empty

/-- From the empty table on, every run of changes keeps the two together. -/
theorem foldl (evs : List CacheEvent) (h : t.Inv m) :
    (evs.foldl Vtab.step t).Inv (evs.foldl VMap.step m) := by
  induction evs generalizing t m with
  | nil => exact h
  | cons ev evs ih => exact ih (h.step ev)

end Vtab.Inv

/-! ### what the invariant says of the table itself -/

namespace Vtab.Inv

variable {t : Vtab} {m : VMap}

theorem mem_abs {b : Nat} {v : PfsnVerdict} (hv : v ∈ t.bucket b) : v.entry ∈ t.abs.bucket b :=
  List.mem_map_of_mem hv

theorem placed (h : t.Inv m) {b : Nat} {v : PfsnVerdict} (hv : v ∈ t.bucket b) :
    b < PFSN_VHASH ∧ pfsnVhash v.af v.proto v.faddr v.fport = b := by
  have hhash : vhash v.key = b := h.represents.placed b v.entry (mem_abs hv)
  refine ⟨hhash ▸ vhash_lt v.key, ?_⟩
  rw [← hhash]
  exact pfsnVhash_eq (h.valid b v hv).family

theorem distinct (h : t.Inv m) : (t.entries.map PfsnVerdict.key).Nodup := by
  rw [entries, List.map_flatMap, List.nodup_flatMap]
  constructor
  · intro b _
    have hkeys := h.represents.distinct b
    rwa [abs, List.map_map] at hkeys
  · refine List.nodup_range.imp fun hne k hk hk' => hne ?_
    obtain ⟨v, hv, rfl⟩ := List.mem_map.mp hk
    obtain ⟨v', hv', hkey⟩ := List.mem_map.mp hk'
    have hb : vhash v.key = _ := h.represents.placed _ v.entry (mem_abs hv)
    have hb' : vhash v'.key = _ := h.represents.placed _ v'.entry (mem_abs hv')
    rw [← hb, ← hb', hkey]

theorem counted (h : t.Inv m) : t.vcount = t.entries.length := by
  have htotal : t.vcount = ((List.range PFSN_VHASH).map fun b => (t.abs.bucket b).length).sum :=
    h.represents.total
  simpa [entries, List.length_flatMap, abs] using htotal

theorem hookLookup (h : t.Inv m) (stack : Faddr) (proto : UInt8) (addr : IpAddr) (fport : UInt16)
    (path : List UInt8) :
    t.hookLookup stack proto addr fport path =
      verdictCode (m.lookup (hookKey proto addr fport path)) := by
  rw [Vtab.hookLookup, Vtab.lookup_eq h.valid (hookAddr_family addr stack), VCache.lookup,
    h.represents.find, keyOf, hookAddr_addrOf, hookKey]

/-- The table represents the map. -/
theorem refines (h : t.Inv m) : t.Refines m where
  placed _ _ := h.placed
  distinct := h.distinct
  counted := h.counted
  bounded := h.represents.bound
  size := h.represents.count
  lookup := h.hookLookup

end Vtab.Inv

/-! ## the latest verdict, and the bytes that do not count -/

namespace VMap

variable {m : VMap} {k : VKey} {v : KVerdict}

theorem step_of_entry {ev : CacheEvent} (h : ev.entry = some (k, v)) : m.step ev = m.insert k v := by
  cases ev with
  | push pv => simp only [step, h]
  | resolve version verdict r => simp only [step, h]
  | flush => cases h

theorem step_of_none {ev : CacheEvent} (hflush : ev ≠ .flush) (h : ev.entry = none) :
    m.step ev = m := by
  cases ev with
  | push pv => simp only [step, h]
  | resolve version verdict r => simp only [step, h]
  | flush => exact absurd rfl hflush

end VMap

/-- `v` is the last verdict to have come in for `k` since the last flush: it found the key or a
free place. -/
def Latest (evs : List CacheEvent) (k : VKey) (v : KVerdict) : Prop :=
  ∃ before ev after, evs = before ++ ev :: after ∧ ev.entry = some (k, v) ∧
    BoundedMap.Fits (before.foldl VMap.step .empty) k ∧
    ∀ e ∈ after, e ≠ .flush ∧ ∀ w, e.entry ≠ some (k, w)

theorem latest_append {evs : List CacheEvent} {e : CacheEvent} {k : VKey} {v : KVerdict} :
    Latest (evs ++ [e]) k v ↔
      (e.entry = some (k, v) ∧ BoundedMap.Fits (evs.foldl VMap.step .empty) k) ∨
        (e ≠ .flush ∧ (∀ w, e.entry ≠ some (k, w)) ∧ Latest evs k v) := by
  constructor
  · rintro ⟨before, ev, after, heq, hentry, hfits, hafter⟩
    rcases List.eq_nil_or_concat after with rfl | ⟨after, e', rfl⟩
    · obtain ⟨rfl, hlast⟩ := List.append_inj' heq rfl
      obtain rfl : e = ev := by simpa using hlast
      exact .inl ⟨hentry, hfits⟩
    · rw [List.concat_eq_append] at heq hafter
      rw [← List.cons_append, ← List.append_assoc] at heq
      obtain ⟨rfl, hlast⟩ := List.append_inj' heq rfl
      obtain rfl : e = e' := by simpa using hlast
      have he := hafter e (by simp)
      exact .inr ⟨he.1, he.2, before, ev, after, rfl, hentry, hfits,
        fun x hx => hafter x (List.mem_append_left _ hx)⟩
  · rintro (⟨hentry, hfits⟩ | ⟨hflush, hother, before, ev, after, rfl, hentry, hfits, hafter⟩)
    · exact ⟨evs, e, [], rfl, hentry, hfits, fun x hx => absurd hx List.not_mem_nil⟩
    · refine ⟨before, ev, after ++ [e], by simp, hentry, hfits, fun x hx => ?_⟩
      obtain hx | hx := List.mem_append.mp hx
      · exact hafter x hx
      · rw [List.mem_singleton.mp hx]
        exact ⟨hflush, hother⟩

/-- The map holds the latest verdicts. -/
theorem lookup_eq_some_iff_latest (evs : List CacheEvent) (k : VKey) (v : KVerdict) :
    BoundedMap.lookup (evs.foldl VMap.step .empty) k = some v ↔ Latest evs k v := by
  induction evs using List.reverseRecOn with
  | nil =>
      constructor
      · intro h
        rw [List.foldl_nil, BoundedMap.lookup_empty] at h
        cases h
      · rintro ⟨before, ev, after, heq, -⟩
        exact absurd heq.symm (by simp)
  | append_singleton evs e ih =>
      rw [List.foldl_append, List.foldl_cons, List.foldl_nil, latest_append, ← ih]
      rcases hentry : e.entry with _ | ⟨k', w⟩
      · by_cases hflush : e = .flush
        · subst hflush
          rw [VMap.step, BoundedMap.lookup_empty]
          simp
        · rw [VMap.step_of_none hflush hentry]
          simp [hflush]
      · have hflush : e ≠ .flush := by
          rintro rfl
          cases hentry
        rw [VMap.step_of_entry hentry, BoundedMap.lookup_insert]
        by_cases hk : k = k'
        · subst hk
          by_cases hfits : BoundedMap.Fits (evs.foldl VMap.step .empty) k
          · simp [hfits]
          · -- without a place for the key there is no verdict of it either
            have hnone := Option.not_isSome_iff_eq_none.mp (not_or.mp hfits).1
            simp [hfits, hnone]
        · simp [hk, hflush, Ne.symm hk]

/-- The same change up to the address bytes that its family does not use. -/
inductive CacheEvent.Alike : CacheEvent → CacheEvent → Prop where
  | push (pv : PfsnitchVerdict) (faddr : Faddr)
      (h : faddr.1.take (familyBytes pv.af) = pv.faddr.1.take (familyBytes pv.af)) :
      Alike (.push pv) (.push { pv with faddr })
  | resolve (version : UInt32) (verdict : UInt8) (r : PfsnReq) (faddr : Faddr)
      (h : faddr.1.take (familyBytes r.af) = r.faddr.1.take (familyBytes r.af)) :
      Alike (.resolve version verdict r) (.resolve version verdict { r with faddr })
  | flush : Alike .flush .flush

theorem keyOf_congr (haf : af = 4 ∨ af = 6)
    (h : faddr'.1.take (familyBytes af) = faddr.1.take (familyBytes af)) :
    keyOf af proto faddr' fport path = keyOf af proto faddr fport path := by
  rw [keyOf, (addrOf_eq_iff haf haf).mpr ⟨rfl, h⟩, keyOf]

theorem CacheEvent.Alike.step_eq {e e' : CacheEvent} (h : e.Alike e') (m : VMap) :
    m.step e' = m.step e := by
  cases h with
  | push pv faddr h =>
      simp only [VMap.step, CacheEvent.entry]
      by_cases haf : pv.af = 4 ∨ pv.af = 6
      · rw [keyOf_congr haf h]
      · simp [haf]
  | resolve version verdict r faddr h =>
      simp only [VMap.step, CacheEvent.entry]
      rw [keyOf_congr r.family h]
  | flush => rfl

theorem foldl_step_alike {evs evs' : List CacheEvent} (h : List.Forall₂ CacheEvent.Alike evs evs')
    (m : VMap) : evs'.foldl VMap.step m = evs.foldl VMap.step m := by
  induction h generalizing m with
  | nil => rfl
  | cons he _ ih => rw [List.foldl_cons, List.foldl_cons, he.step_eq, ih]

/-- After every run of changes the table represents the map; its verdicts are the latest, a change
of a key that is there or finds a place takes effect, and bytes that the family does not use change
nothing. -/
theorem cache_refines (evs : List CacheEvent) :
    let t := evs.foldl Vtab.step .empty
    let m := evs.foldl VMap.step .empty
    t.Refines m ∧
      (∀ k v, BoundedMap.lookup m k = some v ↔ Latest evs k v) ∧
      (∀ ev stack proto addr fport path v,
        ev.entry = some (hookKey proto addr fport path, v) →
        t.hookLookup stack proto addr fport path ≠ 0 ∨ t.vcount < PFSN_VMAX →
        (t.step ev).hookLookup stack proto addr fport path = verdictCode (some v)) ∧
      ∀ evs', List.Forall₂ CacheEvent.Alike evs evs' →
        let t' := evs'.foldl Vtab.step .empty
        t'.vcount = t.vcount ∧ ∀ stack stack' proto addr fport path,
          t'.hookLookup stack' proto addr fport path = t.hookLookup stack proto addr fport path := by
  intro t m
  have hinv : t.Inv m := Vtab.Inv.empty.foldl evs
  refine ⟨hinv.refines, lookup_eq_some_iff_latest evs, ?_, ?_⟩
  · intro ev stack proto addr fport path v hentry hplace
    have hfits : BoundedMap.Fits m (hookKey proto addr fport path) := by
      obtain hfound | hroom := hplace
      · left
        rw [hinv.hookLookup] at hfound
        cases hlook : BoundedMap.lookup m (hookKey proto addr fport path) with
        | none => exact absurd (by rw [hlook]; rfl) hfound
        | some v => rfl
      · right
        rwa [← hinv.represents.count]
    rw [(hinv.step ev).hookLookup, VMap.step_of_entry hentry, BoundedMap.lookup_insert,
      if_pos ⟨rfl, hfits⟩]
  · intro evs' halike t'
    have hinv' : t'.Inv m := by
      have h : t'.Inv (evs'.foldl VMap.step .empty) := Vtab.Inv.empty.foldl evs'
      rwa [foldl_step_alike halike] at h
    refine ⟨hinv'.represents.count.trans hinv.represents.count.symm, ?_⟩
    intro stack stack' proto addr fport path
    rw [hinv'.hookLookup, hinv.hookLookup]

end Pfsnitch
