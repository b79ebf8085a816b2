import Pfsnitch.Calls
import Pfsnitch.Labels

/-!
# Pfsnitch.Queries

The daemon asks whose flow it is, and the kernel answers.
-/

namespace Pfsnitch

open Lib

/-! ## strings that are cut -/

theorem cstring_take (src : List UInt8) (n : Nat) :
    cstring ((cstring src).take n) = (cstring src).take n := by
  refine List.takeWhile_eq_self_iff.mpr fun b hb => ?_
  exact List.mem_takeWhile_imp (p := fun b => decide (b ≠ 0)) (List.mem_of_mem_take hb)

/-- What is copied is the string, as far as it fits. -/
theorem cstring_strlcpy_take {dst : List UInt8} (src : List UInt8) (h : 0 < dst.length) :
    cstring (RawMod.strlcpy dst src) = (cstring src).take (dst.length - 1) := by
  have hcut : RawMod.strlcpy dst src = RawMod.strlcpy dst ((cstring src).take (dst.length - 1)) := by
    rw [RawMod.strlcpy, RawMod.strlcpy, cstring_take, List.take_take, Nat.min_self]
  have hlt : (cstring ((cstring src).take (dst.length - 1))).length < dst.length := by
    rw [cstring_take, List.length_take]
    omega
  rw [hcut, cstring_strlcpy hlt, cstring_take]

/-! ## the question and the answer -/

/-- The socket a question is about: the one that is connected so, or for a datagram the one
that is bound so. -/
def PfsnitchAttr.socket (pcblookup : Pcblookup) (q : PfsnitchAttr) : Option Nat :=
  let find := pcblookup q.proto (addrOf q.af q.faddr) q.fport (addrOf q.af q.laddr) q.lport
  match find false with
  | some so => so
  | none => if q.proto = IPPROTO_UDP then (find true).join else none

/-- The socket of a flow that leaves. -/
def namedSocket (pcblookup : Pcblookup) (t : Procinfo.Tuple) : Option Nat :=
  let find := pcblookup t.proto t.dst (Kernattr.toBe t.dport) t.src (Kernattr.toBe t.sport)
  match find false with
  | some so => so
  | none => if t.proto = IPPROTO_UDP then (find true).join else none

/-- A name and a path as the daemon writes them down. -/
def kernelAttribution (pid : Int32) (comm path : List UInt8) : Procinfo.Attribution :=
  let command := utf8Lossy comm
  let path := utf8Lossy path
  { owner :=
      { pid := pid.toInt
        command
        path := if path = [] then "<unknown:".toList ++ command ++ ['>'] else path }
    confidence := .kernel }

/-- What the daemon is told of a creator. -/
def Creator.attribution (c : Creator) : Procinfo.Attribution :=
  kernelAttribution c.pid ((cstring c.comm).take 23) ((cstring c.path).take 1023)

/-- What it is told of a process: its name up to `MAXCOMLEN`, and the path of its binary. -/
def CurProc.attribution (p : CurProc) : Procinfo.Attribution :=
  kernelAttribution p.pid ((cstring p.comm).take 19) ((p.fullpath.elim [] cstring).take 1023)

theorem CurProc.attribution_creator (p : CurProc) : p.creator.attribution = p.attribution := by
  have hcomm : (cstring p.creator.comm).take 23 = (cstring p.comm).take 19 := by
    have hcut : cstring p.creator.comm = (cstring p.comm).take 19 :=
      cstring_strlcpy_take p.comm (by decide)
    rw [hcut, List.take_take]
    rfl
  have hpath : cstring p.creator.path = p.fullpath.elim [] cstring := by
    cases hfull : p.fullpath with
    | none => simp only [creator, hfull]; rfl
    | some path => simp only [creator, hfull]; exact cstring_terminated path
  rw [Creator.attribution, hcomm, hpath]
  rfl

theorem PfsnitchAttr.ofData_toData (q : PfsnitchAttr) : ofData q.toData = q := by
  have hmem := Struct.get_put attrLayout (q.version, q.af, q.proto, q.lport, q.fport, q.pad0,
    q.laddr, q.faddr, q.found, q.pad1, q.pid, q.uid, q.pad2, q.comm, q.path, ()) []
  rw [List.append_nil] at hmem
  rw [ofData, toData, hmem]

/-- The answer, as the daemon reads it. -/
theorem Kernattr.answer_toData (q : PfsnitchAttr) :
    answer q.toData =
      if q.found = 0 then none
      else some (kernelAttribution q.pid (cstring q.comm.1) (cstring q.path.1)) := by
  have hmem := Struct.get_put attrLayout (q.version, q.af, q.proto, q.lport, q.fport, q.pad0,
    q.laddr, q.faddr, q.found, q.pad1, q.pid, q.uid, q.pad2, q.comm, q.path, ()) []
  rw [List.append_nil] at hmem
  rw [answer, PfsnitchAttr.toData, hmem]
  rfl

/-- The question, as the module reads it. -/
def Kernattr.question (t : Procinfo.Tuple) : PfsnitchAttr where
  version := PFSNITCH_ATTR_VERSION
  af := familyOf t.dst
  proto := t.proto
  lport := toBe t.sport
  fport := toBe t.dport
  pad0 := CType.zeros 2
  laddr := addrField t.src
  faddr := addrField t.dst
  found := PFSNITCH_MISS
  pad1 := CType.zeros 3
  pid := 0
  uid := 0
  pad2 := CType.zeros 4
  comm := CType.zeros 24
  path := CType.zeros 1024

theorem Kernattr.mem_queryCall (t : Procinfo.Tuple) : (queryCall t).mem = (question t).toData := rfl

theorem Kernattr.socket_question (pcblookup : Pcblookup) {t : Procinfo.Tuple}
    (h : familyOf t.src = familyOf t.dst) :
    (question t).socket pcblookup = namedSocket pcblookup t := by
  have hsrc : addrOf (familyOf t.dst) (addrField t.src) = t.src := by rw [← h, addrOf_field]
  have hdst : addrOf (familyOf t.dst) (addrField t.dst) = t.dst := addrOf_field t.dst
  simp only [PfsnitchAttr.socket, question, hsrc, hdst, namedSocket]

/-- A record that is copied out is read as it was; a cleared answer names nobody. -/
theorem Kernattr.answer_copied (q : PfsnitchAttr) {found : UInt8} (hfound : found ≠ 0)
    (info : Creator) :
    answer (PfsnitchAttr.toData
        { q with found, pid := info.pid, uid := info.uid,
                 comm := strlcpyField (nulFirst q.comm) info.comm,
                 path := strlcpyField (nulFirst q.path) info.path }) = some info.attribution := by
  have hcomm := (nulFirst q.comm).2
  have hpath := (nulFirst q.path).2
  rw [answer_toData, if_neg hfound, strlcpyField, strlcpyField, cstring_strlcpy_take _ (by omega),
    cstring_strlcpy_take _ (by omega), hcomm, hpath]
  rfl

theorem Kernattr.answer_cleared (q : PfsnitchAttr) :
    answer (PfsnitchAttr.toData
        { q with found := PFSNITCH_MISS, pid := 0, uid := 0, comm := nulFirst q.comm,
                 path := nulFirst q.path }) = none := by
  rw [answer_toData]
  exact if_pos rfl

/-- What the module answers, whatever lay in the buffers. -/
theorem answer_pfsnLookup (pcblookup : Pcblookup) (identity : Nat → Option Creator) (q : PfsnitchAttr) :
    Kernattr.answer (pfsnLookup pcblookup identity q).toData =
      ((q.socket pcblookup).bind identity).map Creator.attribution := by
  simp only [pfsnLookup, PfsnitchAttr.socket]
  generalize pcblookup q.proto (addrOf q.af q.faddr) q.fport (addrOf q.af q.laddr) q.lport = find
  cases find false with
  | some so =>
      simp only
      cases so.bind identity with
      | none => exact Kernattr.answer_cleared q
      | some info => exact Kernattr.answer_copied q (by decide) info
  | none =>
      by_cases hudp : q.proto = IPPROTO_UDP
      · simp only [if_pos hudp]
        cases find true with
        | none => exact Kernattr.answer_cleared q
        | some so =>
            simp only [Option.join_some]
            cases so.bind identity with
            | none => exact Kernattr.answer_cleared q
            | some info => exact Kernattr.answer_copied q (by decide) info
      · simp only [if_neg hudp]
        exact Kernattr.answer_cleared q

/-! ## whose flow it is -/

/-- What a label says is the creator. -/
theorem Tracks.identity_eq {k : LabelKernel} {owner : Nat → Option CurProc}
    (h : Tracks k.mac k.creators owner) : k.identity = recorded owner := by
  funext s
  rw [LabelKernel.identity]
  cases hslot : k.mac.phase.slot with
  | none =>
      have hheld : k.creators.held k.mac.phase s = none := by
        rw [Creators.held, hslot, Option.bind_none]
      rw [← h.owner, Ledger.holding, hheld, Option.bind_none]
  | some slot => simp only [h.identity hslot s]

theorem attribution_recorded (owner : Nat → Option CurProc) (s : Nat) :
    (recorded owner s).map Creator.attribution = (owner s).map CurProc.attribution := by
  rw [recorded, Option.map_map]
  exact congrArg (fun f => (owner s).map f) (funext CurProc.attribution_creator)

/-- The ioctl of a question. -/
theorem sysIoctl_queryCall (d : RawMod) (lookup : PfsnitchAttr → PfsnitchAttr) {t : Procinfo.Tuple}
    (hproto : t.proto = IPPROTO_TCP ∨ t.proto = IPPROTO_UDP) (memory : Bool) :
    d.sysIoctl lookup (Kernattr.queryCall t).cmd (Kernattr.queryCall t).mem memory =
      .ok (d, (lookup (Kernattr.question t)).toData) := by
  have hlen : (Kernattr.queryCall t).mem.length = iocparmLen Kernattr.attrQueryCmd :=
    (Struct.length_put _ _).trans (by decide)
  have hcmd : (Kernattr.queryCall t).cmd = PFSNITCH_ATTR_QUERY := Kernattr.cmds_eq.1
  have hmem : PfsnitchAttr.ofData (Kernattr.queryCall t).mem = Kernattr.question t := by
    rw [Kernattr.mem_queryCall, PfsnitchAttr.ofData_toData]
  rw [hcmd, RawMod.sysIoctl, if_neg (by rw [hlen]; decide),
    List.take_of_length_le (by rw [hlen]; decide), RawMod.ioctl, if_neg (by decide),
    if_neg (by decide), if_neg (by decide), if_neg (by decide), if_neg (by decide)]
  simp only [hmem]
  have hversion : (Kernattr.question t).version = PFSNITCH_ATTR_VERSION := rfl
  have haf : ¬((Kernattr.question t).af ≠ 4 ∧ (Kernattr.question t).af ≠ 6) := fun h =>
    (Kernattr.familyOf_known t.dst).elim h.1 h.2
  have hknown : ¬((Kernattr.question t).proto ≠ IPPROTO_TCP ∧
      (Kernattr.question t).proto ≠ IPPROTO_UDP) := fun h => hproto.elim h.1 h.2
  rw [if_neg (not_not.mpr hversion), if_neg haf, if_neg hknown]

/-- **The answer is the process that created the socket.**  In every run of the kernel, what
the daemon makes of the bytes the ioctl leaves is the creator of the socket that the stack
finds for the flow: of the one connected so, or for a datagram of the one bound so; and
nobody, if there is no such socket or this module has not seen it created.  The module's
state stays as it is. -/
theorem query_names_creator (malloc : Malloc Nat Creator) (evs : List LabelEvent)
    (pcblookup : Pcblookup) (d : RawMod) (t : Procinfo.Tuple) (memory : Bool) :
    ∃ k seen, LabelKernel.run malloc {} evs = .ok (k, seen) ∧
      if (t.proto = IPPROTO_TCP ∨ t.proto = IPPROTO_UDP) ∧
          Kernattr.familyOf t.src = Kernattr.familyOf t.dst then
        ∃ c out, Kernattr.query t = some c ∧
          d.sysIoctl (pfsnLookup pcblookup k.identity) c.cmd c.mem memory = .ok (d, out) ∧
          Kernattr.answer out = ((namedSocket pcblookup t).bind
            (Owners.run {} evs).1.owner).map CurProc.attribution
      else Kernattr.query t = none := by
  obtain ⟨k, hrun, -, ht⟩ := Tracks.run malloc (k := {}) (o := {}) rfl .fresh evs
  refine ⟨k, _, hrun, ?_⟩
  split
  · rename_i hasks
    obtain ⟨hproto, hfamily⟩ := hasks
    refine ⟨Kernattr.queryCall t, _, ?_, sysIoctl_queryCall d _ hproto memory, ?_⟩
    · exact (if_neg fun h => hproto.elim h.1 h.2).trans (if_neg (not_not.mpr hfamily))
    · rw [answer_pfsnLookup, Kernattr.socket_question pcblookup hfamily, ht.identity_eq]
      cases namedSocket pcblookup t with
      | none => rfl
      | some s => exact attribution_recorded _ s
  · rename_i hasks
    unfold Kernattr.query
    split_ifs with hproto hfamily
    · rfl
    · rfl
    · exact absurd ⟨Decidable.or_iff_not_not_and_not.mpr hproto, not_not.mp hfamily⟩ hasks

end Pfsnitch
