import Pfsnitch.Kernel.Miss
import Pfsnitch.Kernel.Queue

/-!
# Pfsnitch.Stale

Requests the daemon never answered, and the misses that come after them.

An upcall looks for a duplicate and at the length of the queue before it sweeps it, so a
request that has expired still answers a miss for its key, and a queue of expired requests
still is a full one.  `stale_never_decides_iff` says when neither happens: the miss then has
the outcome it has on the queue without them.
-/

namespace Pfsnitch

open Lib

variable {k : KMod} {so : Socket} {addr : IpAddr} {port : UInt16} {info : PfsnInfo}
  {memory : Bool} {now : Nat}

/-- The outcome of a miss: its answer, and the module it leaves without what has expired. -/
def outcome (now : Nat) (r : HookResult × KMod) : HookResult × KMod := (r.1, r.2.reqGc now)

/-- Requests that have expired decide nothing about a miss. -/
def StaleInert (k : KMod) (so : Socket) (addr : IpAddr) (port : UInt16) (memory : Bool)
    (now : Nat) : Prop :=
  outcome now (k.checkConnect so (.inet addr port) memory now) =
    outcome now ((k.reqGc now).checkConnect so (.inet addr port) memory now)

/-- Expired requests stand in the way of a question that would otherwise be put: they are all
that is queued for the key, or they fill the queue. -/
def Jammed (k : KMod) (key : VKey) (memory : Bool) (now : Nat) : Prop :=
  key.path.length < 1024 ∧ k.unloading = false ∧ ¬ (k.reqGc now).Awaits key ∧
    (k.Awaits key ∨
      k.nreq ≥ PFSN_REQ_MAX ∧ (k.reqGc now).nreq < PFSN_REQ_MAX ∧ memory = true)

namespace KMod

/-! ## sweeping -/

@[simp] theorem reqGc_cache (k : KMod) (now : Nat) : (k.reqGc now).cache = k.cache := rfl

@[simp] theorem reqGc_upcallOn (k : KMod) (now : Nat) : (k.reqGc now).upcallOn = k.upcallOn := rfl

@[simp] theorem reqGc_unloading (k : KMod) (now : Nat) :
    (k.reqGc now).unloading = k.unloading := rfl

@[simp] theorem reqGc_failVerdict (k : KMod) (now : Nat) :
    (k.reqGc now).failVerdict = k.failVerdict := rfl

theorem reqGc_nreq_le (k : KMod) (now : Nat) : (k.reqGc now).nreq ≤ k.nreq := Nat.sub_le _ _

/-- A swept queue has nothing more to sweep. -/
@[simp] theorem reqGc_reqGc (k : KMod) (now : Nat) : (k.reqGc now).reqGc now = k.reqGc now := by
  simp [reqGc]

theorem Awaits.of_reqGc {key : VKey} (h : (k.reqGc now).Awaits key) : k.Awaits key := by
  obtain ⟨r, hr, hkey⟩ := h
  exact ⟨r, (k.reqGc_sublist now).subset hr, hkey⟩

/-! ## misses -/

/-- A miss is one on the swept queue, too. -/
theorem Misses.reqGc (h : k.Misses so addr port info) (now : Nat) :
    (k.reqGc now).Misses so addr port info :=
  ⟨h.upcall, h.dgram, h.label, h.named, h.governed, h.asked, h.uncached⟩

end KMod

/-! ## the expired requests -/

/-- A miss that nothing jams has its outcome without the expired requests. -/
theorem staleInert_of_not_jammed (hmiss : k.Misses so addr port info)
    (hfree : ¬ Jammed k ⟨IPPROTO_UDP, addr, port, info.path⟩ memory now) :
    StaleInert k so addr port memory now := by
  rw [StaleInert, hmiss.checkConnect, (hmiss.reqGc now).checkConnect]
  by_cases hlen : info.path.length < 1024
  · cases hunl : k.unloading with
    | true =>
        rw [KMod.upcall_unloading hmiss.named hlen hunl,
          KMod.upcall_unloading (k := k.reqGc now) hmiss.named hlen hunl]
        simp [outcome]
    | false =>
        by_cases hkept : (k.reqGc now).Awaits ⟨IPPROTO_UDP, addr, port, info.path⟩
        · -- an unexpired request for the key answers the miss on either queue
          rw [KMod.upcall_asked hmiss.named hlen hunl hkept.of_reqGc,
            KMod.upcall_asked (k := k.reqGc now) hmiss.named hlen hunl hkept]
          simp [outcome]
        · have hdup : ¬ k.Awaits ⟨IPPROTO_UDP, addr, port, info.path⟩ :=
            fun hdup => hfree ⟨hlen, hunl, hkept, .inl hdup⟩
          by_cases hroom : k.nreq < PFSN_REQ_MAX
          · rw [KMod.upcall_room hmiss.named hlen hunl hdup hroom,
              KMod.upcall_room (k := k.reqGc now) hmiss.named hlen hunl hkept
                (Nat.lt_of_le_of_lt (k.reqGc_nreq_le now) hroom), KMod.reqGc_reqGc]
            rfl
          · rw [KMod.upcall_full hmiss.named hlen hunl hdup (Nat.not_lt.mp hroom)]
            by_cases hgc : (k.reqGc now).nreq < PFSN_REQ_MAX
            · -- full of expired requests: only without memory is the answer the same
              have hmem : memory = false := by
                by_contra hmem
                exact hfree ⟨hlen, hunl, hkept,
                  .inr ⟨Nat.not_lt.mp hroom, hgc, Bool.eq_true_of_not_eq_false hmem⟩⟩
              rw [KMod.upcall_room (k := k.reqGc now) hmiss.named hlen hunl hkept hgc, hmem]
              simp [outcome]
            · rw [KMod.upcall_full (k := k.reqGc now) hmiss.named hlen hunl hkept
                (Nat.not_lt.mp hgc)]
              simp [outcome]
  · simp [KMod.upcall, Nat.not_lt.mp hlen, outcome]

/-- A question that is taken is still there when the queue is swept. -/
theorem asked_of_taken (key : VKey) (nonblock : Bool) :
    KMod.Awaits (KMod.reqGc { k.reqGc now with
      reqs := (k.reqGc now).reqs ++ [(k.reqGc now).newReq key info nonblock now]
      nextId := k.nextId + 1
      nreq := (k.reqGc now).nreq + 1 } now) key := by
  refine ⟨(k.reqGc now).newReq key info nonblock now, ?_, rfl⟩
  refine List.mem_filter.mpr ⟨List.mem_append_right _ (List.mem_singleton_self _), ?_⟩
  simp [KMod.newReq]

/-- A jammed miss has another outcome without the expired requests. -/
theorem not_staleInert_of_jammed (hmiss : k.Misses so addr port info)
    (hjam : Jammed k ⟨IPPROTO_UDP, addr, port, info.path⟩ memory now) :
    ¬ StaleInert k so addr port memory now := by
  intro h
  obtain ⟨hlen, hunl, hkept, hjam⟩ := hjam
  rw [StaleInert, hmiss.checkConnect, (hmiss.reqGc now).checkConnect] at h
  by_cases hdup : k.Awaits ⟨IPPROTO_UDP, addr, port, info.path⟩
  · rw [KMod.upcall_asked hmiss.named hlen hunl hdup] at h
    by_cases hgc : (k.reqGc now).nreq < PFSN_REQ_MAX
    · rw [KMod.upcall_room (k := k.reqGc now) hmiss.named hlen hunl hkept hgc,
        KMod.reqGc_reqGc] at h
      cases memory with
      | true =>
          have hqueue : k.reqGc now = KMod.reqGc _ now := (Prod.mk.inj h).2
          refine hkept (hqueue ▸ ?_)
          exact asked_of_taken _ _
      | false => exact k.failVerdict_ne_eagain (Prod.mk.inj h).1.symm
    · rw [KMod.upcall_full (k := k.reqGc now) hmiss.named hlen hunl hkept
        (Nat.not_lt.mp hgc)] at h
      exact k.failVerdict_ne_eagain (Prod.mk.inj h).1.symm
  · obtain hdup' | ⟨hfull, hgc, hmem⟩ := hjam
    · exact hdup hdup'
    · rw [KMod.upcall_full hmiss.named hlen hunl hdup hfull,
        KMod.upcall_room (k := k.reqGc now) hmiss.named hlen hunl hkept hgc, if_pos hmem] at h
      exact k.failVerdict_ne_eagain (Prod.mk.inj h).1

/-- **Stale requests never decide** a miss that they do not jam, and only those. -/
theorem stale_never_decides_iff (hmiss : k.Misses so addr port info) :
    StaleInert k so addr port memory now ↔
      ¬ Jammed k ⟨IPPROTO_UDP, addr, port, info.path⟩ memory now :=
  ⟨fun h hjam => not_staleInert_of_jammed hmiss hjam h, staleInert_of_not_jammed hmiss⟩

/-- A module that a daemon has read a question of `/a` from, and died. -/
def KMod.orphaned : KMod :=
  ((KMod.fresh.checkConnect socketOfA (.inet (.v4 ⟨192, 0, 2, 1⟩) 443) true 0).2.read).2

theorem orphaned_misses :
    KMod.orphaned.Misses socketOfA (.v4 ⟨192, 0, 2, 1⟩) 443 ⟨100, 0, [0x2f, 0x61]⟩ :=
  ⟨rfl, rfl, rfl, by decide, rfl, by decide, rfl⟩

/-- A minute later the question still is what answers it. -/
theorem orphaned_inert : StaleInert KMod.orphaned socketOfA (.v4 ⟨192, 0, 2, 1⟩) 443 true 60 := by
  refine (stale_never_decides_iff orphaned_misses).mpr ?_
  rintro ⟨-, -, hkept, -⟩
  exact hkept ⟨⟨1, ⟨IPPROTO_UDP, .v4 ⟨192, 0, 2, 1⟩, 443, [0x2f, 0x61]⟩, false, true, 100, 0, 0⟩,
    by decide, rfl⟩

/-- And so it is when it has expired. -/
theorem stale_decides : ¬ ∀ (k : KMod) (so : Socket) (addr : IpAddr) (port : UInt16)
    (info : PfsnInfo) (memory : Bool) (now : Nat), k.Misses so addr port info →
      StaleInert k so addr port memory now := by
  intro h
  refine not_staleInert_of_jammed orphaned_misses ⟨by decide, rfl, ?_, .inl ?_⟩
    (h _ _ _ _ _ true 151 orphaned_misses)
  · rintro ⟨r, hr, -⟩
    have hswept : (KMod.orphaned.reqGc 151).reqs = [] := by decide
    rw [hswept] at hr
    exact List.not_mem_nil hr
  · exact ⟨⟨1, ⟨IPPROTO_UDP, .v4 ⟨192, 0, 2, 1⟩, 443, [0x2f, 0x61]⟩, false, true, 100, 0, 0⟩,
      by decide, rfl⟩

end Pfsnitch
