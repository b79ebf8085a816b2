import Pfsnitch.Guesses

/-!
# Pfsnitch.Probe

`pfsnitch probe` lists what attribution can name.

Each row stands for the flows that a lookup answers from it, every answer has a row, and no
socket has two (`probe_lists`).
-/

namespace Pfsnitch.Procinfo

open Lib

/-! ## the listing -/

/-- One attributable socket; an unconnected one has no peer. -/
structure ProbeEntry where
  proto : UInt8
  localAddr : IpAddr
  lport : UInt16
  peer : Option (IpAddr × UInt16)
  owner : Owner
  confidence : Confidence
deriving DecidableEq

namespace Tables

/-- The rows of connected sockets. -/
def exactEntries (tb : Tables) : List ProbeEntry :=
  tb.exact.entries.map fun e =>
    ⟨e.1.proto, e.1.src, e.1.sport, some (e.1.dst, e.1.dport), e.2, .exact⟩

/-- The rows of sockets bound to an address, unless two processes claim it. -/
def localEntries (tb : Tables) : List ProbeEntry :=
  (tb.locals.owner.entries.filter fun e => e.1 ∉ tb.locals.contested).map fun e =>
    ⟨e.1.1, e.1.2.1, e.1.2.2, none, e.2, .localAddr⟩

/-- The rows of ports that are bound without an address, and have no row by address. -/
def portEntries (tb : Tables) : List ProbeEntry :=
  (tb.ports.owner.entries.filter fun e => e.1 ∉ tb.ports.contested &&
      !tb.locals.owner.keys.any fun k => k.1 = e.1.1 && k.2.2 = e.1.2).map fun e =>
    ⟨e.1.1, .v4 ⟨0, 0, 0, 0⟩, e.1.2, none, e.2, .port⟩

/-- One row per attributable socket.  In what order a map is walked is not said; here it is
the order of its list. -/
def entries (tb : Tables) : List ProbeEntry := tb.exactEntries ++ tb.localEntries ++ tb.portEntries

end Tables

/-! ## what a row says -/

namespace ProbeEntry

/-- The flows that a row is about. -/
def Covers (r : ProbeEntry) (t : Tuple) : Prop :=
  r.proto = t.proto ∧ r.lport = t.sport ∧
    match r.confidence with
    | .exact => r.localAddr = t.src ∧ r.peer = some (t.dst, t.dport)
    | .localAddr => r.localAddr = t.src
    | .port => True
    | .kernel => False

/-- The socket that a row shows. -/
def socket (r : ProbeEntry) : UInt8 × IpAddr × UInt16 × Option (IpAddr × UInt16) :=
  (r.proto, r.localAddr, r.lport, r.peer)

end ProbeEntry

section

variable {tb : Tables} {r : ProbeEntry} {m : Machine} {t : Tuple} {o : Owner}

theorem mem_exactEntries : r ∈ tb.exactEntries ↔
    ∃ t o, tb.exact.lookup t = some o ∧
      r = ⟨t.proto, t.src, t.sport, some (t.dst, t.dport), o, .exact⟩ := by
  rw [Tables.exactEntries, List.mem_map]
  constructor
  · rintro ⟨⟨t, o⟩, hmem, rfl⟩
    exact ⟨t, o, AList.mem_lookup_iff.mpr hmem, rfl⟩
  · rintro ⟨t, o, hlookup, rfl⟩
    exact ⟨⟨t, o⟩, AList.mem_lookup_iff.mp hlookup, rfl⟩

theorem mem_localEntries : r ∈ tb.localEntries ↔
    ∃ k o, tb.locals.find k = some o ∧ r = ⟨k.1, k.2.1, k.2.2, none, o, .localAddr⟩ := by
  rw [Tables.localEntries, List.mem_map]
  constructor
  · rintro ⟨⟨k, o⟩, hmem, rfl⟩
    obtain ⟨hmem, hfree⟩ := List.mem_filter.mp hmem
    refine ⟨k, o, ?_, rfl⟩
    rw [Claims.find, if_neg (of_decide_eq_true hfree)]
    exact AList.mem_lookup_iff.mpr hmem
  · rintro ⟨k, o, hfind, rfl⟩
    unfold Claims.find at hfind
    split at hfind
    · cases hfind
    · rename_i hfree
      exact ⟨⟨k, o⟩, List.mem_filter.mpr ⟨AList.mem_lookup_iff.mp hfind, decide_eq_true hfree⟩, rfl⟩

theorem mem_portEntries : r ∈ tb.portEntries ↔
    ∃ k o, tb.ports.find k = some o ∧ (∀ k' ∈ tb.locals.owner.keys, ¬(k'.1 = k.1 ∧ k'.2.2 = k.2)) ∧
      r = ⟨k.1, .v4 ⟨0, 0, 0, 0⟩, k.2, none, o, .port⟩ := by
  have hany : ∀ k : UInt8 × UInt16,
      (!tb.locals.owner.keys.any fun k' => decide (k'.1 = k.1) && decide (k'.2.2 = k.2)) = true ↔
        ∀ k' ∈ tb.locals.owner.keys, ¬(k'.1 = k.1 ∧ k'.2.2 = k.2) := by
    intro k
    simp
  rw [Tables.portEntries, List.mem_map]
  constructor
  · rintro ⟨⟨k, o⟩, hmem, rfl⟩
    obtain ⟨hmem, hkeep⟩ := List.mem_filter.mp hmem
    obtain ⟨hfree, hnone⟩ := (Bool.and_eq_true ..).mp hkeep
    refine ⟨k, o, ?_, (hany k).mp hnone, rfl⟩
    rw [Claims.find, if_neg (of_decide_eq_true hfree)]
    exact AList.mem_lookup_iff.mpr hmem
  · rintro ⟨k, o, hfind, hnone, rfl⟩
    unfold Claims.find at hfind
    split at hfind
    · cases hfind
    · rename_i hfree
      refine ⟨⟨k, o⟩, List.mem_filter.mpr ⟨AList.mem_lookup_iff.mp hfind, ?_⟩, rfl⟩
      exact (Bool.and_eq_true ..).mpr ⟨decide_eq_true hfree, (hany k).mpr hnone⟩

/-! ## sockets on no two rows -/

/-- Two processes never claim a port that one of them is named for. -/
theorem claimed_local {k : UInt8 × IpAddr × UInt16} {o' : Owner}
    (hport : (snapshot m).ports.find (k.1, k.2.2) = some o)
    (hlocal : (k, o') ∈ claims SockStat.localKey m.sockets) : o' = o := by
  obtain ⟨s, hs, hk⟩ := mem_claims.mp hlocal
  obtain ⟨hproto, hbound, -⟩ := localKey_eq_some_iff.mp hk
  obtain ⟨hmem, hsole⟩ := (snapshot_holds m).ports.sole hport
  have hclaim : ((k.1, k.2.2), o') ∈ claims SockStat.portKey m.sockets :=
    mem_claims.mpr ⟨s, hs, portKey_eq_some_iff.mpr ⟨hproto, k.2.1, hbound⟩⟩
  exact m.owner_eq _ hclaim _ hmem (hsole o' hclaim)

/-- A port that is named and bound to some address is named at that address too. -/
theorem find_local {k : UInt8 × IpAddr × UInt16}
    (hport : (snapshot m).ports.find (k.1, k.2.2) = some o)
    (hkey : k ∈ (snapshot m).locals.owner.keys) : (snapshot m).locals.find k = some o := by
  have hlocals := (snapshot_holds m).locals
  obtain ⟨o', hlookup⟩ := Option.isSome_iff_exists.mp (AList.lookup_isSome.mpr hkey)
  have hclaim := hlocals.mem k o' hlookup
  rw [hlocals.find_eq_some_iff m.owner_eq]
  refine ⟨claimed_local hport hclaim ▸ hclaim, fun b hb => ?_⟩
  rw [claimed_local hport hb]

/-- Rows by address have an address. -/
theorem specified_of_mem (h : r ∈ (snapshot m).localEntries) :
    isUnspecified r.localAddr = false := by
  obtain ⟨k, o, hfind, rfl⟩ := mem_localEntries.mp h
  obtain ⟨s, -, hk⟩ := mem_claims.mp ((snapshot_holds m).locals.sole hfind).1
  exact (localKey_eq_some_iff.mp hk).2.2

/-- The keys of a map are each listed once, whatever rows are left out. -/
theorem nodup_entries {κ β : Type} (as : AList fun _ : κ => β)
    (p : Sigma (fun _ : κ => β) → Bool) :
    (as.entries.filter p).Pairwise fun e e' => e.1 ≠ e'.1 :=
  (List.pairwise_map.mp as.nodupKeys).filter p

theorem nodup_exactEntries (tb : Tables) : (tb.exactEntries.map ProbeEntry.socket).Nodup := by
  have hkeys := nodup_entries tb.exact fun _ => true
  rw [List.filter_true] at hkeys
  rw [Tables.exactEntries, List.map_map, List.Nodup, List.pairwise_map]
  refine hkeys.imp fun {e e'} hne heq => hne ?_
  obtain ⟨⟨proto, src, sport, dst, dport⟩, o⟩ := e
  obtain ⟨⟨proto', src', sport', dst', dport'⟩, o'⟩ := e'
  simpa [ProbeEntry.socket] using heq

theorem nodup_localEntries (tb : Tables) : (tb.localEntries.map ProbeEntry.socket).Nodup := by
  rw [Tables.localEntries, List.map_map, List.Nodup, List.pairwise_map]
  refine (nodup_entries tb.locals.owner _).imp fun {e e'} hne heq => hne ?_
  simpa [ProbeEntry.socket, Prod.ext_iff] using heq

theorem nodup_portEntries (tb : Tables) : (tb.portEntries.map ProbeEntry.socket).Nodup := by
  rw [Tables.portEntries, List.map_map, List.Nodup, List.pairwise_map]
  refine (nodup_entries tb.ports.owner _).imp fun {e e'} hne heq => hne ?_
  simpa [ProbeEntry.socket, Prod.ext_iff] using heq

/-- No socket has two rows. -/
theorem nodup_entries_sockets (m : Machine) :
    ((snapshot m).entries.map ProbeEntry.socket).Nodup := by
  have hexact : ∀ x ∈ (snapshot m).exactEntries.map ProbeEntry.socket, x.2.2.2 ≠ none := by
    intro x hx
    obtain ⟨r, hr, rfl⟩ := List.mem_map.mp hx
    obtain ⟨t, o, -, rfl⟩ := mem_exactEntries.mp hr
    exact fun h => nomatch h
  have hlocal : ∀ x ∈ (snapshot m).localEntries.map ProbeEntry.socket,
      x.2.2.2 = none ∧ isUnspecified x.2.1 = false := by
    intro x hx
    obtain ⟨r, hr, rfl⟩ := List.mem_map.mp hx
    have haddr := specified_of_mem hr
    obtain ⟨k, o, -, rfl⟩ := mem_localEntries.mp hr
    exact ⟨rfl, haddr⟩
  have hport : ∀ x ∈ (snapshot m).portEntries.map ProbeEntry.socket,
      x.2.2.2 = none ∧ isUnspecified x.2.1 = true := by
    intro x hx
    obtain ⟨r, hr, rfl⟩ := List.mem_map.mp hx
    obtain ⟨k, o, -, -, rfl⟩ := mem_portEntries.mp hr
    exact ⟨rfl, rfl⟩
  rw [Tables.entries, List.map_append, List.map_append]
  refine List.nodup_append.mpr ⟨List.nodup_append.mpr
    ⟨nodup_exactEntries _, nodup_localEntries _, ?_⟩, nodup_portEntries _, ?_⟩
  · intro x hx y hy heq
    exact hexact x hx (heq ▸ (hlocal y hy).1)
  · intro x hx y hy heq
    obtain hx | hx := List.mem_append.mp hx
    · exact hexact x hx (heq ▸ (hport y hy).1)
    · have h := (hlocal x hx).2
      rw [heq, (hport y hy).2] at h
      cases h

/-! ## rows and answers -/

/-- What a row says is answered, unless a connected socket answers. -/
theorem get_of_covers (hr : r ∈ tb.entries) (hc : r.Covers t) :
    tb.get t true = some ⟨r.owner, r.confidence⟩ ∨
      r.confidence ≠ .exact ∧ ∃ o, tb.get t true = some ⟨o, .exact⟩ := by
  obtain ⟨hproto, hport, hc⟩ := hc
  rw [Tables.entries, List.mem_append, List.mem_append] at hr
  obtain ((hr | hr) | hr) := hr
  · obtain ⟨u, o, hlookup, rfl⟩ := mem_exactEntries.mp hr
    obtain ⟨haddr, hpeer⟩ := hc
    have htu : t = u := by
      obtain ⟨proto, src, sport, dst, dport⟩ := t
      obtain ⟨proto', src', sport', dst', dport'⟩ := u
      simp_all
    subst htu
    exact .inl (by rw [Tables.get, hlookup])
  · obtain ⟨⟨proto, addr, port⟩, o, hfind, rfl⟩ := mem_localEntries.mp hr
    dsimp only at hproto hport hc
    subst hproto hport hc
    cases hlookup : tb.exact.lookup t with
    | some o' => exact .inr ⟨(by simp), o', by rw [Tables.get, hlookup]⟩
    | none => exact .inl (by simp [Tables.get, hlookup, hfind])
  · obtain ⟨⟨proto, port⟩, o, hfind, hnone, rfl⟩ := mem_portEntries.mp hr
    dsimp only at hproto hport
    subst hproto hport
    cases hlookup : tb.exact.lookup t with
    | some o' => exact .inr ⟨(by simp), o', by rw [Tables.get, hlookup]⟩
    | none =>
        -- no key at any address of the port, so none at this one
        have hlocal : tb.locals.find (t.proto, t.src, t.sport) = none := by
          rw [Claims.find]
          split
          · rfl
          · rw [AList.lookup_eq_none]
            exact fun hkey => hnone _ hkey ⟨rfl, rfl⟩
        exact .inl (by simp [Tables.get, hlookup, hlocal, hfind])

/-- An answer has its row; by port alone, perhaps the row by address. -/
theorem exists_of_get {outbound : Bool} {a : Attribution}
    (h : (snapshot m).get t outbound = some a) :
    ∃ r ∈ (snapshot m).entries, r.owner = a.owner ∧ (r.Covers t ∧ r.confidence = a.confidence ∨
      a.confidence = .port ∧ r.confidence = .localAddr ∧ r.proto = t.proto ∧
        r.lport = t.sport) := by
  simp only [Tables.entries, List.mem_append]
  obtain ⟨hconf, hlookup⟩ | ⟨hconf, hfind⟩ | ⟨hconf, hfind⟩ := Tables.get_cases h
  · exact ⟨_, .inl (.inl (mem_exactEntries.mpr ⟨t, a.owner, hlookup, rfl⟩)), rfl,
      .inl ⟨⟨rfl, rfl, rfl, rfl⟩, hconf.symm⟩⟩
  · exact ⟨_, .inl (.inr (mem_localEntries.mpr ⟨_, a.owner, hfind, rfl⟩)), rfl,
      .inl ⟨⟨rfl, rfl, rfl⟩, hconf.symm⟩⟩
  · by_cases hkeys : ∃ k ∈ (snapshot m).locals.owner.keys, k.1 = t.proto ∧ k.2.2 = t.sport
    · obtain ⟨⟨proto, addr, port⟩, hkey, hproto, hport⟩ := hkeys
      dsimp only at hproto hport
      subst hproto hport
      exact ⟨_, .inl (.inr (mem_localEntries.mpr ⟨_, a.owner, find_local hfind hkey, rfl⟩)), rfl,
        .inr ⟨hconf, rfl, rfl, rfl⟩⟩
    · exact ⟨_, .inr (mem_portEntries.mpr ⟨_, a.owner, hfind,
        fun k hk hkk => hkeys ⟨k, hk, hkk⟩, rfl⟩), rfl, .inl ⟨⟨rfl, rfl, trivial⟩, hconf.symm⟩⟩

/-- The listing says what attribution does.  A row is answered for the flows it is about,
unless a connected socket has the flow; every answer has a row of the same owner, by address
where there is one; and no socket is listed twice. -/
theorem probe_lists (m : Machine) :
    (∀ r ∈ (snapshot m).entries, ∀ t, r.Covers t →
      (snapshot m).get t true = some ⟨r.owner, r.confidence⟩ ∨
      r.confidence ≠ .exact ∧ ∃ o, (snapshot m).get t true = some ⟨o, .exact⟩) ∧
    (∀ t outbound a, (snapshot m).get t outbound = some a →
      ∃ r ∈ (snapshot m).entries, r.owner = a.owner ∧
        (r.Covers t ∧ r.confidence = a.confidence ∨ a.confidence = .port ∧
          r.confidence = .localAddr ∧ r.proto = t.proto ∧ r.lport = t.sport)) ∧
    ((snapshot m).entries.map ProbeEntry.socket).Nodup :=
  ⟨fun _ hr _ hc => get_of_covers hr hc, fun _ _ _ h => exists_of_get h,
    nodup_entries_sockets m⟩

end

end Pfsnitch.Procinfo
