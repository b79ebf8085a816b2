import Pfsnitch.Kernel.Hook
import Mathlib.Data.List.Nodup

/-!
# Pfsnitch.Kernel.Queue

The queue of upcall requests is kept sound by every operation of the module:
its counter is its length, the ids of the requests grow along it and are below
the next one, and no key is queued twice (`KMod.Sound`).

The counter of ids is a number here; the module's has 64 bits.
-/

namespace Pfsnitch

open Lib

/-- What holds of the queue between two operations. -/
structure KMod.Sound (k : KMod) : Prop where
  count : k.nreq = k.reqs.length
  bound : k.nreq ≤ PFSN_REQ_MAX
  ids : (k.reqs.map (·.id)).Pairwise (· < ·)
  fresh : ∀ i ∈ k.reqs.map (·.id), i < k.nextId
  keys : (k.reqs.map (·.key)).Nodup

namespace KMod

variable {k k' : KMod}

/-- A copyout that failed: the request, if it is still there, is to be delivered again. -/
def redeliverIn (id : Nat) : List Req → List Req
  | [] => []
  | r :: rest => if r.id = id then { r with delivered := false } :: rest else r :: redeliverIn id rest

/-- The second half of `pfsn_read`, when `uiomove` has failed. -/
def redeliver (k : KMod) (id : Nat) : KMod := { k with reqs := redeliverIn id k.reqs }

/-! ## what each operation does to the queue -/

/-- Sweeping drops requests, and the counter follows. -/
theorem reqGc_sublist (k : KMod) (now : Nat) : (k.reqGc now).reqs.Sublist k.reqs :=
  List.filter_sublist

theorem reqGc_count {now : Nat} (h : k.nreq = k.reqs.length) :
    (k.reqGc now).nreq = (k.reqGc now).reqs.length := by
  have hle := (k.reqGc_sublist now).length_le
  simp only [reqGc] at hle ⊢
  omega

/-- What an upcall can do: nothing, or a sweep, or a sweep and one more request
at the end, under a key that is not queued. -/
inductive UpcallStep (k : KMod) (now : Nat) : HookResult × KMod → Prop
  | refused (r : HookResult) : UpcallStep k now (r, k)
  | swept (r : HookResult) : UpcallStep k now (r, k.reqGc now)
  | queued {key : VKey} {info : PfsnInfo} {nonblock : Bool} (hkey : ∀ r ∈ k.reqs, r.key ≠ key)
      (hfull : k.nreq < PFSN_REQ_MAX) (hpath : info.path ≠ []) (hinfo : key.path = info.path) :
      UpcallStep k now (.eagain, { k.reqGc now with
        reqs := (k.reqGc now).reqs ++ [(k.reqGc now).newReq key info nonblock now]
        nextId := k.nextId + 1
        nreq := (k.reqGc now).nreq + 1 })

theorem upcall_step (k : KMod) (proto : UInt8) (addr : IpAddr) (fport : UInt16) (info : PfsnInfo)
    (nonblock memory : Bool) (now : Nat) :
    UpcallStep k now (k.upcall proto addr fport info nonblock memory now) := by
  unfold upcall
  extract_lets key
  split
  · exact .refused _
  · rename_i hpath
    split
    · exact .refused _
    · split
      · exact .refused _
      · rename_i hdup
        split
        · exact .refused _
        · rename_i hfull
          split
          · exact .swept _
          · refine .queued (fun r hr heq => hdup ?_) (Nat.lt_of_not_le hfull)
              (fun h => hpath (.inl h)) rfl
            exact List.any_eq_true.mpr ⟨r, hr, decide_eq_true heq⟩

/-- The hook does to the queue what an upcall does. -/
theorem checkConnect_step (k : KMod) (so : Socket) (sa : SockAddr) (memory : Bool) (now : Nat) :
    UpcallStep k now (k.checkConnect so sa memory now) := by
  obtain h | ⟨_, -, h⟩ | ⟨addr, port, info, -, h⟩ := k.checkConnect_cases so sa memory now <;> rw [h]
  · exact .refused _
  · exact .refused _
  · exact k.upcall_step _ _ _ _ _ _ _

/-- A resolve drops the request with the id, or finds none and changes nothing. -/
theorem resolve_step (k : KMod) (id : Nat) (v : KVerdict) (memory : Bool) :
    ((∀ r ∈ k.reqs, r.id ≠ id) ∧ k.resolve id v memory = k) ∨
      ∃ r ∈ k.reqs, r.id = id ∧ k.resolve id v memory =
        { k with
          cache := k.cache.cacheInsert memory r.key v
          reqs := k.reqs.eraseP fun r => r.id = id
          nreq := k.nreq - 1 } := by
  unfold resolve
  cases hr : k.reqs.find? fun r => decide (r.id = id) with
  | none =>
      refine .inl ⟨fun r hmem heq => ?_, rfl⟩
      have hno := List.find?_eq_none.mp hr r hmem
      simp [heq] at hno
  | some r =>
      exact .inr ⟨r, List.mem_of_find?_eq_some hr, by simpa using List.find?_some hr, rfl⟩

/-- A read marks the first request that is not delivered, or changes nothing. -/
theorem read_step (k : KMod) : k.read.2 = k ∨
    ∃ r, k.read.1 = .event r ∧ (k.reqs.find? fun r => !r.delivered) = some r ∧
      k.read.2 = { k with
        reqs := k.reqs.map fun s => if s.id = r.id then { s with delivered := true } else s } := by
  unfold read
  split
  · exact .inl rfl
  · split
    · rename_i r hr
      exact .inr ⟨r, rfl, hr, rfl⟩
    · exact .inl rfl

/-- An event is read only off a queue that holds it, and with the upcall on. -/
theorem read_event {r : Req} (h : k.read = (.event r, k')) :
    k.upcallOn = true ∧ (k.reqs.find? fun r => !r.delivered) = some r ∧
      k' = { k with
        reqs := k.reqs.map fun s => if s.id = r.id then { s with delivered := true } else s } := by
  unfold read at h
  split at h
  · cases h
  · rename_i hon
    split at h
    · rename_i hr
      obtain ⟨⟨⟩, rfl⟩ := Prod.mk.inj h
      refine ⟨?_, hr, rfl⟩
      by_contra hoff
      exact hon (.inr (by simpa using hoff))
    · cases h

/-- Marking requests leaves their ids and keys. -/
theorem map_mark {α : Type} (f : Req → α) (reqs : List Req) (id : Nat) (b : Bool)
    (hf : ∀ r, f { r with delivered := b } = f r) :
    (reqs.map fun s => if s.id = id then { s with delivered := b } else s).map f = reqs.map f := by
  rw [List.map_map]
  refine List.map_congr_left fun r _ => ?_
  simp only [Function.comp]
  split
  · exact hf r
  · rfl

theorem map_redeliverIn {α : Type} (f : Req → α) (id : Nat) (reqs : List Req)
    (hf : ∀ r, f { r with delivered := false } = f r) :
    (redeliverIn id reqs).map f = reqs.map f := by
  induction reqs with
  | nil => rfl
  | cons r rest ih =>
      rw [redeliverIn]
      split
      · rw [List.map_cons, List.map_cons, hf]
      · rw [List.map_cons, List.map_cons, ih]

/-! ## soundness -/

/-- Soundness is about the queue and its two counters only. -/
theorem Sound.congr (h : k.Sound) (hids : k'.reqs.map (·.id) = k.reqs.map (·.id))
    (hkeys : k'.reqs.map (·.key) = k.reqs.map (·.key)) (hnext : k'.nextId = k.nextId)
    (hnreq : k'.nreq = k.nreq) : k'.Sound where
  count := by
    have hlen := congrArg List.length hids
    rw [List.length_map, List.length_map] at hlen
    rw [hnreq, hlen, h.count]
  bound := hnreq ▸ h.bound
  ids := hids ▸ h.ids
  fresh := by rw [hids, hnext]; exact h.fresh
  keys := hkeys ▸ h.keys

/-- Dropping requests keeps a queue sound when the counter follows. -/
theorem Sound.drop (h : k.Sound) (hsub : k'.reqs.Sublist k.reqs)
    (hcount : k'.nreq = k'.reqs.length) (hnext : k'.nextId = k.nextId) : k'.Sound where
  count := hcount
  bound := by
    have hle := hsub.length_le
    have hbound := h.bound
    rw [h.count] at hbound
    omega
  ids := h.ids.sublist (hsub.map _)
  fresh i hi := hnext ▸ h.fresh i ((hsub.map _).subset hi)
  keys := h.keys.sublist (hsub.map _)

/-- A module that has just been loaded. -/
theorem sound_fresh {k : KMod} (hreqs : k.reqs = []) (hnreq : k.nreq = 0) : k.Sound where
  count := by rw [hreqs, hnreq, List.length_nil]
  bound := hnreq ▸ Nat.zero_le _
  ids := by rw [hreqs]; exact .nil
  fresh := by simp [hreqs]
  keys := by simp [hreqs]

theorem Sound.reqGc (h : k.Sound) (now : Nat) : (k.reqGc now).Sound :=
  h.drop (k.reqGc_sublist now) (reqGc_count h.count) rfl

theorem Sound.upcallStep (h : k.Sound) {now : Nat} {r : HookResult × KMod}
    (hstep : UpcallStep k now r) : r.2.Sound := by
  cases hstep with
  | refused => exact h
  | swept => exact h.reqGc now
  | @queued key info nonblock hkey hfull =>
      have hgc := h.reqGc now
      have hsub := k.reqGc_sublist now
      refine ⟨?_, ?_, ?_, ?_, ?_⟩
      · simp [hgc.count]
      · have hle := hsub.length_le
        rw [h.count] at hfull
        change (k.reqGc now).nreq + 1 ≤ _
        rw [hgc.count]
        omega
      · rw [List.map_append, List.pairwise_append]
        refine ⟨hgc.ids, List.pairwise_singleton _ _, fun i hi j hj => ?_⟩
        obtain rfl := List.mem_singleton.mp hj
        exact hgc.fresh i hi
      · intro i hi
        rw [List.map_append, List.mem_append] at hi
        obtain hi | hi := hi
        · exact Nat.lt_succ_of_lt (hgc.fresh i hi)
        · obtain rfl := List.mem_singleton.mp hi
          exact Nat.lt_succ_self _
      · rw [List.map_append, List.nodup_append]
        refine ⟨hgc.keys, List.nodup_singleton _, ?_⟩
        rintro key' hkey' _ hnew rfl
        obtain rfl := List.mem_singleton.mp hnew
        obtain ⟨s, hs, hskey⟩ := List.mem_map.mp hkey'
        exact hkey s (hsub.subset hs) hskey

theorem Sound.checkConnect (h : k.Sound) (so : Socket) (sa : SockAddr) (memory : Bool)
    (now : Nat) : (k.checkConnect so sa memory now).2.Sound :=
  h.upcallStep (k.checkConnect_step so sa memory now)

theorem Sound.resolve (h : k.Sound) (id : Nat) (v : KVerdict) (memory : Bool) :
    (k.resolve id v memory).Sound := by
  obtain ⟨-, heq⟩ | ⟨r, hr, hid, heq⟩ := k.resolve_step id v memory <;> rw [heq]
  · exact h
  · refine h.drop List.eraseP_sublist ?_ rfl
    change k.nreq - 1 = (k.reqs.eraseP fun r => r.id = id).length
    rw [List.length_eraseP_of_mem hr (decide_eq_true hid), h.count]

theorem Sound.read (h : k.Sound) : k.read.2.Sound := by
  obtain heq | ⟨r, -, -, heq⟩ := k.read_step <;> rw [heq]
  · exact h
  · exact h.congr (map_mark _ _ _ _ fun _ => rfl) (map_mark _ _ _ _ fun _ => rfl) rfl rfl

theorem Sound.redeliver (h : k.Sound) (id : Nat) : (k.redeliver id).Sound :=
  h.congr (map_redeliverIn _ _ _ fun _ => rfl) (map_redeliverIn _ _ _ fun _ => rfl) rfl rfl

theorem Sound.verdictPush (h : k.Sound) (proto : UInt8) (addr : IpAddr) (fport : UInt16)
    (v : KVerdict) (path : List UInt8) (memory : Bool) :
    (k.verdictPush proto addr fport v path memory).Sound := by
  obtain heq | heq := k.verdictPush_cases proto addr fport v path memory <;> rw [heq]
  · exact h
  · exact h.congr rfl rfl rfl rfl

theorem Sound.nodup_ids (h : k.Sound) : (k.reqs.map (·.id)).Nodup := h.ids.imp Nat.ne_of_lt

/-- A sound queue holds one request under an id. -/
theorem Sound.eq_of_id (h : k.Sound) {r s : Req} (hr : r ∈ k.reqs) (hs : s ∈ k.reqs)
    (hid : r.id = s.id) : r = s :=
  List.inj_on_of_nodup_map h.nodup_ids hr hs hid

/-- What is left after a resolve are the requests with other ids. -/
theorem Sound.mem_resolve (h : k.Sound) {id : Nat} {v : KVerdict} {memory : Bool} {s : Req} :
    s ∈ (k.resolve id v memory).reqs ↔ s ∈ k.reqs ∧ s.id ≠ id := by
  obtain ⟨hno, heq⟩ | ⟨r, hr, hid, heq⟩ := k.resolve_step id v memory <;> rw [heq]
  · exact ⟨fun hs => ⟨hs, hno s hs⟩, And.left⟩
  · have hnd : k.reqs.Nodup := h.nodup_ids.of_map
    obtain ⟨a, l₁, l₂, hl₁, ha, hsplit, herase⟩ :=
      List.exists_of_eraseP (p := fun r : Req => decide (r.id = id)) hr (decide_eq_true hid)
    have hmem : s ∈ k.reqs.eraseP (fun r => decide (r.id = id)) ↔ s ∈ l₁ ∨ s ∈ l₂ := by
      rw [herase, List.mem_append]
    have haid : a.id = id := of_decide_eq_true ha
    have hak : a ∈ k.reqs := by simp [hsplit]
    change s ∈ k.reqs.eraseP _ ↔ _
    rw [hmem]
    have hne : ∀ t, t ∈ l₁ ∨ t ∈ l₂ → t ∈ k.reqs ∧ t.id ≠ id := by
      intro t ht
      have htk : t ∈ k.reqs := by
        rw [hsplit]
        simpa using ht.imp_right .inr
      refine ⟨htk, fun hid' => ?_⟩
      obtain rfl := h.eq_of_id htk hak (hid'.trans haid.symm)
      rw [hsplit, List.nodup_append] at hnd
      obtain ht | ht := ht
      · exact hl₁ t ht (decide_eq_true hid')
      · exact (List.nodup_cons.mp hnd.2.1).1 ht
    refine ⟨hne s, fun ⟨hs, hid'⟩ => ?_⟩
    rw [hsplit] at hs
    simp only [List.mem_append, List.mem_cons] at hs
    obtain hs | rfl | hs := hs
    · exact .inl hs
    · exact absurd haid hid'
    · exact .inr hs

end KMod

end Pfsnitch
