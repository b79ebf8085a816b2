import Pfsnitch.Kernel.Miss

/-!
# Pfsnitch.Exempt

Which destinations the hook exempts.

The loopback test passes the calls to a destination before the cache is read, so a
destination it takes for loopback escapes every cached DENY.  For an IPv4-mapped address it
looks at three bytes and not at the ten before them: it exempts more than
::ffff:127.0.0.0/104, and `hook_exemptions_iff` says which addresses these are.
-/

namespace Pfsnitch

open Lib

variable {addr : IpAddr}

/-- Calls to the destination pass, whichever socket makes them and whatever the module holds. -/
def Exempt (addr : IpAddr) : Prop :=
  ∀ (k : KMod) so port memory now, k.checkConnect so (.inet addr port) memory now = (.pass, k)

/-- The exemptions at a destination: it is exempt just when it is loopback; where it is not,
a cached DENY of a labelled socket is enforced; and neither a TCP connect nor a send to
port 53 is put off. -/
structure ExactlyExempt (addr : IpAddr) : Prop where
  exempt : Exempt addr ↔ IsLoopback addr
  denied : ¬ IsLoopback addr → ∀ (k : KMod) (so : Socket) proto info port memory now,
    so.soType.proto = some proto → so.label = some info → info.path ≠ [] →
      k.cache.lookup ⟨proto, addr, port, info.path⟩ = some .deny →
        k.checkConnect so (.inet addr port) memory now = (.eperm, k)
  atOnce : ∀ (k : KMod) so port memory now, so.soType = .stream ∨ port = 53 →
    (k.checkConnect so (.inet addr port) memory now).1 ≠ .eagain

/-- The bytes of ::ffff:127.0.0.0/104 after a prefix that is not all zero. -/
def MappedElsewhere : IpAddr → Prop
  | .v4 _ => False
  | .v6 a => (a.octets.drop 10).take 3 = [0xff, 0xff, 127] ∧ a.octets.take 10 ≠ List.replicate 10 0

/-! ## the loopback test -/

/-- A module that denies `/a` every datagram to port 443 of an address. -/
def KMod.denying (addr : IpAddr) : KMod :=
  { cache := VCache.cacheInsert Table.empty true ⟨IPPROTO_UDP, addr, 443, [0x2f, 0x61]⟩ .deny }

theorem denying_lookup (addr : IpAddr) :
    (KMod.denying addr).cache.lookup ⟨IPPROTO_UDP, addr, 443, [0x2f, 0x61]⟩ = some .deny := by
  have hfits : (VKey.mk IPPROTO_UDP addr 443 [0x2f, 0x61]).path.length < 1024 :=
    show 2 < 1024 by decide
  rw [KMod.denying, VCache.lookup_cacheInsert_of_fits hfits]
  exact if_pos ⟨rfl, .inr ⟨show 0 < 8192 by decide, rfl⟩⟩

/-- What the loopback test takes is exempt; anything else can be denied. -/
theorem exempt_iff : Exempt addr ↔ hookLoopback addr = true := by
  constructor
  · intro h
    by_contra hloop
    have hanswer : (KMod.denying addr).checkConnect socketOfA (.inet addr 443) true 0 =
        (.eperm, KMod.denying addr) := by
      rw [checkConnect_labelled (by rfl) rfl (by decide) (Bool.eq_false_iff.mpr hloop),
        denying_lookup]
    rw [h] at hanswer
    cases (Prod.mk.inj hanswer).1
  · intro hloop k so port memory now
    refine checkConnect_of_not_governable ?_
    rintro ⟨_, _, _, _, hsa, hno, -⟩
    cases hsa
    rw [hloop] at hno
    cases hno

/-- The bytes that the test looks at. -/
theorem drop_take_three {l : List UInt8} (h : l.length = 16) :
    (l.drop 10).take 3 = [l.getD 10 0, l.getD 11 0, l.getD 12 0] := by
  refine List.ext_getElem (by simp [h]) fun i hi _ => ?_
  have hi3 : i < 3 := by simpa [h] using hi
  rw [List.getElem_take, List.getElem_drop]
  interval_cases i
  all_goals simp [h]

/-- The test takes no address for loopback but those with the bytes of one. -/
theorem isLoopback_iff (h : ¬ MappedElsewhere addr) :
    hookLoopback addr = true ↔ IsLoopback addr := by
  refine ⟨fun hloop => ?_, hookLoopback_of_isLoopback⟩
  cases addr with
  | v4 a => simpa [hookLoopback, IsLoopback] using hloop
  | v6 a =>
      simp only [hookLoopback, decide_eq_true_eq] at hloop
      obtain hloop | hbytes := hloop
      · exact .inl hloop
      · right
        have hmapped : (a.octets.drop 10).take 3 = [0xff, 0xff, 127] := by
          rw [drop_take_three a.size, hbytes.1, hbytes.2.1, hbytes.2.2]
        have hprefix : a.octets.take 10 = List.replicate 10 0 := by
          by_contra hne
          exact h ⟨hmapped, hne⟩
        rw [show 13 = 10 + 3 from rfl, List.take_add, hprefix, hmapped]
        rfl

/-- An address with the bytes of a mapped loopback address is taken for one, wherever it is. -/
theorem hookLoopback_of_mappedElsewhere (h : MappedElsewhere addr) :
    hookLoopback addr = true ∧ ¬ IsLoopback addr := by
  cases addr with
  | v4 a => exact h.elim
  | v6 a =>
      obtain ⟨hbytes, hprefix⟩ := h
      have hthree := hbytes
      rw [drop_take_three a.size, List.cons.injEq, List.cons.injEq, List.cons.injEq] at hthree
      refine ⟨decide_eq_true (.inr ⟨hthree.1, hthree.2.1, hthree.2.2.1⟩), ?_⟩
      rintro (hlocal | hmapped)
      · rw [hlocal] at hbytes
        cases hbytes
      · apply hprefix
        have htake : (a.octets.take 13).take 10 = a.octets.take 10 := by
          rw [List.take_take, Nat.min_eq_left (by decide)]
        rw [← htake, hmapped]
        rfl
/-! ## the exemptions -/

/-- **The hook's exemptions are exact** at every destination but the IPv6 addresses that have
the bytes of an IPv4-mapped loopback address after a prefix that is not zero. -/
theorem hook_exemptions_iff (addr : IpAddr) : ExactlyExempt addr ↔ ¬ MappedElsewhere addr := by
  constructor
  · intro h hmapped
    obtain ⟨hloop, hno⟩ := hookLoopback_of_mappedElsewhere hmapped
    exact hno (h.exempt.mp (exempt_iff.mpr hloop))
  · intro h
    refine ⟨exempt_iff.trans (isLoopback_iff h), ?denied, ?atOnce⟩
    case denied =>
      intro hno k so proto info port memory now hproto hlabel hpath hdeny
      have hloop : hookLoopback addr = false :=
        Bool.eq_false_iff.mpr fun hloop => hno ((isLoopback_iff h).mp hloop)
      rw [checkConnect_labelled hproto hlabel hpath hloop, hdeny]
    case atOnce =>
      intro k so port memory now hso
      obtain ⟨hanswer, -⟩ | ⟨_, _, _, hsa, hmiss⟩ :=
        k.checkConnect_misses so (.inet addr port) memory now
      · exact hanswer
      · cases hsa
        obtain hstream | hport := hso
        · rw [hmiss.dgram] at hstream
          cases hstream
        · exact absurd hport hmiss.asked

/-- A global address is exempt that only ends like a mapped loopback address. -/
theorem hook_exempts_global : ¬ ∀ addr, ExactlyExempt addr := by
  intro h
  -- 2001:db8::ffff:7f00:1
  have hmapped : MappedElsewhere (.v6 ⟨[0x20, 0x01, 0x0d, 0xb8, 0, 0, 0, 0, 0, 0, 0xff, 0xff,
      127, 0, 0, 1], rfl⟩) := ⟨by decide, by decide⟩
  obtain ⟨hloop, hno⟩ := hookLoopback_of_mappedElsewhere hmapped
  exact hno ((h _).exempt.mp (exempt_iff.mpr hloop))

end Pfsnitch
