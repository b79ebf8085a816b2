import Pfsnitch.Daemon.Kernattr
import Pfsnitch.Daemon.System

/-!
# Pfsnitch.Abi

What the variables of the compiled device stand for: numbers for the ids and the flags, strings
for what lies before a NUL, addresses for a family and a field.  Each operation on the
variables is the module's operation on what they stand for, whatever the hook's stack holds.
-/

namespace Pfsnitch

open Lib

/-! ## what the variables stand for -/

/-- The creator a record names. -/
def Creator.info (c : Creator) : PfsnInfo := ⟨c.pid.toInt, c.uid, cstring c.path⟩

def RawSocket.abs (so : RawSocket) : Socket := ⟨so.soType, so.label.map Creator.info, so.nbio⟩

/-- A sockaddr with its port in host order. -/
def SockAddr.host : SockAddr → SockAddr
  | .inet addr port => .inet addr (ntohs port)
  | .other => .other

/-- The key a request asks for. -/
def PfsnReq.key (r : PfsnReq) : VKey := keyOf r.af r.proto r.faddr r.fport r.path

def RawReq.abs (r : RawReq) : Req where
  id := r.id.toNat
  key := r.key
  nonblock := r.nonblock ≠ 0
  delivered := r.delivered ≠ 0
  pid := r.pid.toInt
  uid := r.uid
  born := r.born

def RawMod.abs (k : RawMod) : KMod where
  cache := k.vtab.abs
  reqs := k.reqs.map RawReq.abs
  nextId := k.nextId.toNat
  nreq := k.nreq
  unloading := k.unloading
  upcallOn := k.upcallOn
  failmode := if k.failmode = 1 then .fclosed else .fopen

/-! ## requests -/

theorem PfsnReq.counted_path (r : PfsnReq) : Counted r.path r.pathlen.toNat := by
  have hlen := congrArg List.length r.terminated
  rw [List.length_append, List.length_singleton] at hlen
  rw [r.counted]
  exact ⟨by rw [List.take_length, ← r.terminated], hlen⟩

theorem asks_iff (r q : PfsnReq) : RawMod.asks r q ↔ q.key = r.key := by
  -- a request is compared as an entry of the cache is
  let v : PfsnVerdict := ⟨q.af, q.proto, PFSNITCH_V_ALLOW, q.fport, q.faddr, q.pathlen, q.path⟩
  have hv : v.Valid := ⟨q.family, .inl rfl, q.terminated, q.counted⟩
  refine Iff.trans ?_ (PfsnVerdict.insert_iff hv r.family r.counted_path)
  simp only [RawMod.asks, PfsnVerdict.sameDest, decide_eq_true_iff, Bool.and_eq_true, beq_iff_eq,
    UInt16.toNat_inj, v]
  tauto

theorem pfsnUpcall_eq_none {stack : Faddr} {proto : UInt8} {addr : IpAddr} {fport : UInt16}
    {path : List UInt8} (h : pfsnUpcall stack proto addr fport path = none) :
    cstring path = [] ∨ (cstring path).length ≥ 1024 := by
  unfold pfsnUpcall at h
  extract_lets plen at h
  split at h
  · rename_i hlen
    exact hlen.imp_left List.length_eq_zero_iff.mp
  · cases h

theorem pfsnUpcall_eq_some {stack : Faddr} {proto : UInt8} {addr : IpAddr} {fport : UInt16}
    {path : List UInt8} {r : PfsnReq} (h : pfsnUpcall stack proto addr fport path = some r) :
    r.key = ⟨proto, addr, ntohs fport, cstring path⟩ ∧
      ¬ (cstring path = [] ∨ (cstring path).length ≥ 1024) := by
  unfold pfsnUpcall at h
  extract_lets plen at h
  split at h
  · cases h
  · rename_i hlen
    obtain rfl := Option.some.inj h
    refine ⟨?_, fun hno => hlen (hno.imp_left List.length_eq_zero_iff.mpr)⟩
    rw [PfsnReq.key, keyOf, hookAddr_addrOf, cstring_terminated]

namespace RawMod

variable {k : RawMod} {stack : Faddr} {proto : UInt8} {addr : IpAddr} {fport : UInt16}
  {info : Creator} {nonblock memory : Bool} {now : Nat}

@[simp] theorem failVerdict_abs (k : RawMod) : k.abs.failVerdict = k.failVerdict := by
  by_cases h : k.failmode = 1 <;> simp [KMod.failVerdict, failVerdict, abs, h]

theorem reqGc_abs (k : RawMod) (now : Nat) : (k.reqGc now).abs = k.abs.reqGc now := by
  have hkept : (k.reqs.filter fun r => !decide (now - r.born > PFSN_REQ_GCAGE)).map RawReq.abs =
      (k.reqs.map RawReq.abs).filter fun r => !decide (now - r.born > PFSN_REQ_GCAGE) := by
    rw [List.filter_map]
    rfl
  simp only [reqGc, KMod.reqGc, abs, ← hkept, List.length_map]
  rfl

theorem newReq_abs {r : PfsnReq} {key : VKey} (hkey : r.key = key) :
    (k.newReq r info nonblock now).abs = k.abs.newReq key info.info nonblock now := by
  subst hkey
  cases nonblock <;> rfl

/-- Queueing a request of a key, as long as there are ids. -/
theorem queue_abs {r : PfsnReq} {key : VKey} (hid : k.nextId.toNat + 1 < 2 ^ 64)
    (hkey : r.key = key) :
    abs { k with
      reqs := k.reqs ++ [k.newReq r info nonblock now]
      nextId := k.nextId + 1
      nreq := k.nreq + 1 } =
    { k.abs with
      reqs := k.abs.reqs ++ [k.abs.newReq key info.info nonblock now]
      nextId := k.abs.nextId + 1
      nreq := k.abs.nreq + 1 } := by
  have hnext : (k.nextId + 1).toNat = k.nextId.toNat + 1 := by
    rw [UInt64.toNat_add]
    exact Nat.mod_eq_of_lt hid
  simp only [abs, List.map_append, List.map_cons, List.map_nil, newReq_abs hkey, hnext]

/-- An upcall is one of the module, as long as there are ids. -/
theorem upcall_abs (hid : k.nextId.toNat + 1 < 2 ^ 64) :
    Prod.map id abs (k.upcall stack proto addr fport info nonblock memory now) =
      k.abs.upcall proto addr (ntohs fport) info.info nonblock memory now := by
  cases hr : pfsnUpcall stack proto addr fport info.path with
  | none =>
      have hpath : info.info.path = [] ∨ info.info.path.length ≥ 1024 := pfsnUpcall_eq_none hr
      simp only [upcall, hr, KMod.upcall]
      rw [if_pos hpath]
      rfl
  | some r =>
      obtain ⟨hkey, hpath⟩ := pfsnUpcall_eq_some hr
      have hpath : ¬ (info.info.path = [] ∨ info.info.path.length ≥ 1024) := hpath
      have hany : (k.abs.reqs.any fun q =>
          decide (q.key = ⟨proto, addr, ntohs fport, info.info.path⟩)) =
          k.reqs.any fun q => asks r q.toPfsnReq := by
        rw [abs, List.any_map, Bool.eq_iff_iff, List.any_eq_true, List.any_eq_true]
        refine exists_congr fun q => and_congr_right fun _ => ?_
        rw [asks_iff, hkey]
        exact decide_eq_true_iff
      have hunl : k.abs.unloading = k.unloading := rfl
      have hnreq : k.abs.nreq = k.nreq := rfl
      simp only [upcall, hr, KMod.upcall, hany, failVerdict_abs, ← reqGc_abs, hunl, hnreq]
      rw [if_neg hpath]
      split_ifs
      · rfl
      · rfl
      · rfl
      · rfl
      · exact congrArg (Prod.mk HookResult.eagain) (queue_abs (k := k.reqGc now) hid hkey)

/-! ## the hook -/

theorem loopback_hookAddr (addr : IpAddr) (stack : Faddr) :
    loopback (hookAddr addr stack).1 (hookAddr addr stack).2 = hookLoopback addr := by
  cases addr with
  | v4 a => rfl
  | v6 a => rfl

/-- What a lookup for the hook finds, as a number. -/
theorem lookup_hookAddr (hv : k.vtab.Valid) (path : List UInt8) :
    k.vtab.lookup (hookAddr addr stack).1 proto (hookAddr addr stack).2 fport path =
      verdictCode (k.abs.cache.lookup ⟨proto, addr, ntohs fport, cstring path⟩) := by
  rw [Vtab.lookup_eq hv (hookAddr_family addr stack), keyOf, hookAddr_addrOf]
  rfl

/-- The hook is the one of the module, whatever was on its stack. -/
theorem checkConnect_abs (hv : k.vtab.Valid) (hid : k.nextId.toNat + 1 < 2 ^ 64) (so : RawSocket)
    (sa : SockAddr) (stack : Faddr) :
    Prod.map id abs (k.checkConnect so sa stack memory now) =
      k.abs.checkConnect so.abs sa.host memory now := by
  unfold checkConnect KMod.checkConnect
  extract_lets governed governed'
  have hgoverned : ∀ proto, Prod.map id abs (governed proto) = governed' proto := by
    intro proto
    simp only [governed, governed']
    cases sa with
    | other => rfl
    | inet addr fport =>
        simp only [SockAddr.host, loopback_hookAddr]
        by_cases hloop : hookLoopback addr
        · rw [if_pos hloop, if_pos hloop]
          rfl
        · rw [if_neg hloop, if_neg hloop]
          cases hlabel : so.label with
          | none => simp only [RawSocket.abs, hlabel]; rfl
          | some info =>
              have hup : k.abs.upcallOn = k.upcallOn := rfl
              simp only [RawSocket.abs, hlabel, Option.map_some, lookup_hookAddr hv, Creator.info,
                hup]
              by_cases hpath : cstring info.path = []
              · rw [if_pos hpath, if_pos hpath]
                rfl
              · rw [if_neg hpath, if_neg hpath]
                cases k.abs.cache.lookup ⟨proto, addr, ntohs fport, cstring info.path⟩ with
                | none =>
                    have hdeny : verdictCode none ≠ PFSNITCH_V_DENY := by decide
                    have hallow : verdictCode none ≠ PFSNITCH_V_ALLOW := by decide
                    rw [if_neg hdeny, if_neg hallow, apply_ite (Prod.map id abs), upcall_abs hid]
                    rfl
                | some v =>
                    cases v with
                    | allow => rfl
                    | deny => rfl
  cases so with
  | mk soType label nbio =>
      cases soType with
      | stream => exact hgoverned _
      | dgram => exact hgoverned _
      | other => rfl

/-! ## the ioctls -/

/-- A push files the verdict under the key its bytes stand for. -/
theorem verdictPush_abs (hv : k.vtab.Valid) {pv : PfsnitchVerdict} (haf : pv.af = 4 ∨ pv.af = 6)
    (hproto : pv.proto = IPPROTO_TCP ∨ pv.proto = IPPROTO_UDP) :
    (k.verdictPush pv memory).abs =
      k.abs.verdictPush pv.proto (addrOf pv.af pv.faddr) (ntohs pv.fport) (kverdictOf pv.verdict)
        pv.path.1 memory := by
  have hlen : (cstring pv.path.1).length = 0 ↔ cstring pv.path.1 = [] := List.length_eq_zero_iff
  have hknown : ¬ (pv.proto ≠ IPPROTO_TCP ∧ pv.proto ≠ IPPROTO_UDP) := by tauto
  have hpath : pv.path.1.takeWhile (· ≠ 0) = cstring pv.path.1 := rfl
  simp only [verdictPush, KMod.verdictPush, hlen, hpath]
  rw [if_neg hknown]
  split_ifs with hpath
  · rfl
  · have hsize := pv.path.2
    have hcount : Counted pv.path.1 _ := counted_of_lt (by omega)
    simp only [abs, Vtab.abs_cacheInsert hv haf hcount (by omega)]
    rfl

/-- A resolve settles the request of the module that has the id. -/
theorem resolve_abs (hv : k.vtab.Valid) (id : UInt64) (verdict : UInt8) :
    (k.resolve id verdict memory).abs = k.abs.resolve id.toNat (kverdictOf verdict) memory := by
  have hid : ∀ r : RawReq, decide (r.abs.id = id.toNat) = decide (r.id = id) := fun r =>
    decide_eq_decide.mpr UInt64.toNat_inj
  have hfind : k.abs.reqs.find? (fun r => decide (r.id = id.toNat)) =
      (k.reqs.find? fun r => decide (r.id = id)).map RawReq.abs := by
    rw [abs, List.find?_map]
    simp only [Function.comp_def, hid]
  have herase : (k.reqs.map RawReq.abs).eraseP (fun r => decide (r.id = id.toNat)) =
      (k.reqs.eraseP fun r => decide (r.id = id)).map RawReq.abs := by
    rw [List.eraseP_map]
    simp only [Function.comp_def, hid]
  simp only [resolve, KMod.resolve, hfind]
  cases k.reqs.find? fun r => decide (r.id = id) with
  | none => rfl
  | some r =>
      have hfits := r.counted ▸ r.fits
      simp only [Option.map_some, abs, herase,
        Vtab.abs_cacheInsert hv r.family r.counted_path hfits]
      rfl

/-! ## reads -/

/-- Marking the first request that is not delivered is marking its id. -/
theorem markFirst_abs {reqs : List RawReq} {r : RawReq} (hids : (reqs.map RawReq.id).Nodup)
    (hr : (reqs.find? fun r => decide (r.delivered = 0)) = some r) :
    (markFirst reqs).map RawReq.abs = (reqs.map RawReq.abs).map fun s =>
      if s.id = r.abs.id then { s with delivered := true } else s := by
  induction reqs with
  | nil => cases hr
  | cons q reqs ih =>
      rw [List.map_cons, List.nodup_cons] at hids
      rw [markFirst]
      by_cases hq : q.delivered = 0
      · rw [List.find?_cons, decide_eq_true hq] at hr
        obtain rfl := Option.some.inj hr
        have hrest : ∀ s ∈ reqs.map RawReq.abs,
            (if s.id = q.abs.id then { s with delivered := true } else s) = s := by
          intro s hs
          obtain ⟨p, hp, rfl⟩ := List.mem_map.mp hs
          refine if_neg fun h => hids.1 ?_
          exact UInt64.toNat_inj.mp h ▸ List.mem_map_of_mem hp
        rw [if_pos hq, List.map_cons, List.map_cons, List.map_cons, if_pos rfl,
          List.map_congr_left hrest, List.map_id']
        rfl
      · rw [List.find?_cons, decide_eq_false hq] at hr
        have hne : q.abs.id ≠ r.abs.id := fun h => hids.1
          (UInt64.toNat_inj.mp h ▸ List.mem_map_of_mem (List.mem_of_find?_eq_some hr))
        rw [if_neg hq, List.map_cons, List.map_cons, List.map_cons, if_neg hne, ih hids.2 hr]

/-- What a read of the module ends in, for the daemon. -/
inductive Reads : ReadResult × RawMod → KMod.ReadResult × KMod → Prop
  | eof {k : RawMod} : Reads (.eof, k) (.eof, k.abs)
  | wait {k : RawMod} : Reads (.wait, k) (.wait, k.abs)
  | event {r : RawReq} {k : RawMod} : Reads (.event r.id (event r), k) (.event r.abs, k.abs)

/-- A read into a buffer that is large enough is one of the module. -/
theorem read_abs (hids : (k.reqs.map RawReq.id).Nodup) {resid : Nat}
    (hresid : Struct.size eventLayout ≤ resid) : Reads (k.read resid) k.abs.read := by
  have hfind : (k.abs.reqs.find? fun r => !r.delivered) =
      (k.reqs.find? fun r => decide (r.delivered = 0)).map RawReq.abs := by
    rw [abs, List.find?_map]
    congr 2
    funext r
    by_cases h : r.delivered = 0 <;> simp [RawReq.abs, h]
  have hunl : k.abs.unloading = k.unloading := rfl
  have hup : k.abs.upcallOn = k.upcallOn := rfl
  rw [read, if_neg (Nat.not_lt.mpr hresid), KMod.read, hfind, hunl, hup]
  by_cases hoff : k.unloading = true ∨ (!k.upcallOn) = true
  · rw [if_pos hoff, if_pos hoff]
    exact .eof
  · rw [if_neg hoff, if_neg hoff]
    cases hr : k.reqs.find? fun r => decide (r.delivered = 0) with
    | none => exact .wait
    | some r =>
        have hmark := markFirst_abs hids hr
        have habs : abs { k with reqs := markFirst k.reqs } = { k.abs with
            reqs := k.abs.reqs.map fun s =>
              if s.id = r.abs.id then { s with delivered := true } else s } := by
          simp only [abs, hmark]
        have hevent := Reads.event (r := r) (k := { k with reqs := markFirst k.reqs })
        rw [habs] at hevent
        exact hevent

theorem redeliver_abs (k : RawMod) (id : UInt64) :
    (k.redeliver id).abs = k.abs.redeliver id.toNat := by
  have hreqs : ∀ reqs : List RawReq, (redeliverIn id reqs).map RawReq.abs =
      KMod.redeliverIn id.toNat (reqs.map RawReq.abs) := by
    intro reqs
    induction reqs with
    | nil => rfl
    | cons r reqs ih =>
        have hid : r.abs.id = id.toNat ↔ r.id = id := UInt64.toNat_inj
        rw [redeliverIn, List.map_cons, KMod.redeliverIn]
        by_cases hr : r.id = id
        · rw [if_pos hr, if_pos (hid.mpr hr)]
          rfl
        · rw [if_neg hr, if_neg (hid.not.mpr hr), List.map_cons, ih]
  simp only [redeliver, abs, hreqs, KMod.redeliver]
  rfl

end RawMod

/-! ## what the daemon makes of an event -/

theorem cstring_append (src rest : List UInt8) : cstring (cstring src ++ 0 :: rest) = cstring src := by
  have hbytes : ∀ b ∈ cstring src, decide (b ≠ 0) = true := fun b hb =>
    List.mem_takeWhile_imp (p := fun b => decide (b ≠ 0)) hb
  rw [cstring, List.takeWhile_append_of_pos hbytes]
  simp

theorem strlcpy_eq {dst src : List UInt8} (h : (cstring src).length < dst.length) :
    RawMod.strlcpy dst src = cstring src ++ 0 :: dst.drop ((cstring src).length + 1) := by
  have htake : (cstring src).take (dst.length - 1) = cstring src :=
    List.take_of_length_le (by omega)
  simp only [RawMod.strlcpy, htake]
  rw [List.append_assoc, List.singleton_append, List.take_of_length_le]
  rw [List.length_append, List.length_cons, List.length_drop]
  omega

/-- A string that fits is copied whole. -/
theorem cstring_strlcpy {dst src : List UInt8} (h : (cstring src).length < dst.length) :
    cstring (RawMod.strlcpy dst src) = cstring src := by
  rw [strlcpy_eq h, cstring_append]

/-- The event of a request is read as what the request says. -/
theorem readEvent_event (r : RawReq) :
    Kernattr.readEvent (RawMod.event r) = .event r.abs.event := by
  have hlen : (RawMod.event r).length = Struct.size eventLayout := Struct.length_put _ _
  have hget := Struct.get_put eventLayout (r.id, r.af, r.proto, r.fport, r.faddr, r.nonblock,
    CType.zeros 3, r.pid, r.uid, ⟨RawMod.strlcpy (List.replicate 1024 0) r.path,
      (RawMod.length_strlcpy _ _).trans List.length_replicate⟩, ()) []
  rw [List.append_nil] at hget
  unfold Kernattr.readEvent
  rw [if_neg (by rw [hlen]; decide), if_neg (not_not.mpr hlen), RawMod.event, hget]
  have hpath : cstring (RawMod.strlcpy (List.replicate 1024 0) r.path) = cstring r.path := by
    refine cstring_strlcpy ?_
    have hfits := r.fits
    rw [r.terminated, List.length_append, List.length_singleton] at hfits
    rw [List.length_replicate]
    omega
  have hsix : (6 : UInt8) ≠ 4 := by decide
  simp only [hpath, RawReq.abs, Req.event, PfsnReq.key, keyOf, addrOf, Kernattr.toBe]
  obtain haf | haf := r.family
  · simp only [haf, if_true]
  · simp only [haf, hsix, if_false, if_true]

end Pfsnitch
