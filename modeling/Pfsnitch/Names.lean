import Pfsnitch.Dns
import Pfsnitch.Policy.Reload

/-!
# Pfsnitch.Names

Names learned from the wire, written as rules.

A message spells a name as a run of labels (`Spells`), which is what `readName`
reads, joined by dots (`readName_spells`).  Nothing checks the labels, so a
learned name is safe to write as a rule exactly when the labels are plain, and
the binary's path is (`learned_names_safe_iff`).
-/

namespace Pfsnitch

open Lib

/-! ## the labels of a name -/

/-- The labels that a message spells at an offset.  A pointer stands for what is
spelled where it points. -/
inductive Spells (b : List UInt8) : Nat → List (List UInt8) → Prop
  | root {off : Nat} (h : b[off]? = some 0) : Spells b off []
  | label {off : Nat} {len : UInt8} {ls : List (List UInt8)} (h : b[off]? = some len)
      (htag : len.toNat / 64 ≠ 3) (hlen : len ≠ 0) (hfits : off + 1 + len.toNat ≤ b.length)
      (hrest : Spells b (off + 1 + len.toNat) ls) :
      Spells b off ((b.drop (off + 1)).take len.toNat :: ls)
  | pointer {off : Nat} {hi lo : UInt8} {ls : List (List UInt8)} (h : b[off]? = some hi)
      (htag : hi.toNat / 64 = 3) (hlo : b[off + 1]? = some lo)
      (hrest : Spells b (hi.toNat % 64 * 256 + lo.toNat) ls) : Spells b off ls

/-- The labels as text, with dots between them. -/
def dotted : List (List UInt8) → Str
  | [] => []
  | [l] => utf8Lossy l
  | l :: ls => utf8Lossy l ++ '.' :: dotted ls

/-- A message spells at most one name at an offset. -/
theorem Spells.unique {b : List UInt8} {off : Nat} {ls ls' : List (List UInt8)}
    (h : Spells b off ls) (h' : Spells b off ls') : ls = ls' := by
  induction h generalizing ls' with
  | root h =>
      cases h' with
      | root => rfl
      | label h₁ _ hlen => exact absurd (Option.some.inj (h.symm.trans h₁)).symm hlen
      | pointer h₁ htag =>
          obtain rfl := Option.some.inj (h.symm.trans h₁)
          exact absurd htag (by decide)
  | label h htag hlen hfits hrest ih =>
      cases h' with
      | root h₁ => exact absurd (Option.some.inj (h.symm.trans h₁)) hlen
      | label h₁ _ _ _ hrest₁ =>
          obtain rfl := Option.some.inj (h.symm.trans h₁)
          rw [ih hrest₁]
      | pointer h₁ htag₁ =>
          obtain rfl := Option.some.inj (h.symm.trans h₁)
          exact absurd htag₁ htag
  | pointer h htag hlo hrest ih =>
      cases h' with
      | root h₁ =>
          obtain rfl := Option.some.inj (h.symm.trans h₁)
          exact absurd htag (by decide)
      | label h₁ htag₁ =>
          obtain rfl := Option.some.inj (h.symm.trans h₁)
          exact absurd htag htag₁
      | pointer h₁ _ hlo₁ hrest₁ =>
          obtain rfl := Option.some.inj (h.symm.trans h₁)
          obtain rfl := Option.some.inj (hlo.symm.trans hlo₁)
          exact ih hrest₁

/-- A text followed by labels. -/
def extend (out : Str) : List (List UInt8) → Str
  | [] => out
  | l :: ls => if out.isEmpty then dotted (l :: ls) else out ++ '.' :: dotted (l :: ls)

theorem extend_append {out : Str} {l : List UInt8} {ls : List (List UInt8)} (hl : l ≠ []) :
    extend ((if out.isEmpty then out else out ++ ['.']) ++ utf8Lossy l) ls = extend out (l :: ls) := by
  have hne := utf8Lossy_ne_nil hl
  cases ls with
  | nil => cases out <;> simp [extend, dotted]
  | cons m ls => cases out <;> simp [extend, dotted, hne]

/-- What one turn of the loop does when a name is read in the end: it stops at the root, goes
where a pointer leads, or takes a label. -/
theorem readNameLoop_cases {b : List UInt8} {fuel off hops : Nat} {after : Option Nat} {out : Str}
    {r : Str × Nat} (h : readNameLoop b (fuel + 1) out off after hops = some r) :
    (b[off]? = some 0 ∧ r = (out, after.getD (off + 1))) ∨
    (∃ hi lo, b[off]? = some hi ∧ hi.toNat / 64 = 3 ∧ b[off + 1]? = some lo ∧
      readNameLoop b fuel out (hi.toNat % 64 * 256 + lo.toNat) (after.or (some (off + 2)))
        (hops + 1) = some r) ∨
    ∃ len, b[off]? = some len ∧ len.toNat / 64 ≠ 3 ∧ len ≠ 0 ∧ off + 1 + len.toNat ≤ b.length ∧
      readNameLoop b fuel
        ((if out.isEmpty then out else out ++ ['.']) ++
          utf8Lossy ((b.drop (off + 1)).take len.toNat))
        (off + 1 + len.toNat) after hops = some r := by
  rw [readNameLoop] at h
  cases hlen : b[off]? with
  | none =>
      rw [hlen] at h
      cases h
  | some len =>
      rw [hlen] at h
      dsimp only at h
      by_cases htag : len.toNat / 64 = 3
      · rw [if_pos htag] at h
        cases hlo : b[off + 1]? with
        | none =>
            rw [hlo] at h
            cases h
        | some lo =>
            rw [hlo] at h
            dsimp only at h
            split at h
            · cases h
            · exact .inr (.inl ⟨len, lo, rfl, htag, rfl, h⟩)
      · rw [if_neg htag] at h
        by_cases hzero : len = 0
        · rw [if_pos hzero] at h
          exact .inl ⟨congrArg some hzero, (Option.some.inj h).symm⟩
        · rw [if_neg hzero] at h
          split at h
          · cases h
          · exact .inr (.inr ⟨len, rfl, htag, hzero, by omega, h⟩)

theorem readNameLoop_spells {b : List UInt8} {fuel off hops next : Nat} {after : Option Nat}
    {out name : Str} (h : readNameLoop b fuel out off after hops = some (name, next)) :
    ∃ ls, Spells b off ls ∧ name = extend out ls := by
  induction fuel generalizing out off after hops with
  | zero => cases h
  | succ fuel ih =>
      obtain ⟨hzero, hr⟩ | ⟨hi, lo, hhi, htag, hlo, h⟩ | ⟨len, hlen, htag, hpos, hfits, h⟩ :=
        readNameLoop_cases h
      · exact ⟨[], .root hzero, (Prod.mk.inj hr).1⟩
      · obtain ⟨ls, hspells, rfl⟩ := ih h
        exact ⟨ls, .pointer hhi htag hlo hspells, rfl⟩
      · have hne : (b.drop (off + 1)).take len.toNat ≠ [] := by
          have hlt : 0 < len.toNat := by
            rw [Nat.pos_iff_ne_zero]
            exact fun hz => hpos (UInt8.toNat_inj.mp hz)
          apply List.ne_nil_of_length_pos
          rw [List.length_take, List.length_drop]
          omega
        obtain ⟨ls, hspells, rfl⟩ := ih h
        exact ⟨_, .label hlen htag hpos hfits hspells, extend_append hne⟩

/-- `read_name` reads the name that the message spells. -/
theorem readName_spells {b : List UInt8} {start next : Nat} {name : Str}
    (h : readName b start = some (name, next)) : ∃ ls, Spells b start ls ∧ name = dotted ls := by
  obtain ⟨ls, hspells, rfl⟩ := readNameLoop_spells h
  refine ⟨ls, hspells, ?_⟩
  cases ls <;> rfl

/-! ## what is learned -/

/-- The name of an answer is the one its question spells, and it comes with an
address. -/
theorem parseResponse_spells {b : List UInt8} {name : Str} {ips : List IpAddr}
    (h : parseResponse b = some (name, ips)) :
    ips ≠ [] ∧ ∃ ls, Spells b 12 ls ∧ name = dotted ls := by
  unfold parseResponse at h
  dsimp only at h
  split at h
  · cases h
  · split at h
    · cases h
    · split at h
      · cases h
      · split at h
        · cases h
        · rename_i qname next hname
          split at h
          · cases h
          · split at h
            · obtain ⟨rfl, rfl⟩ := Prod.mk.inj (Option.some.inj h)
              exact ⟨List.cons_ne_nil _ _, readName_spells hname⟩
            · cases h

namespace DnsCache

theorem nameFor_foldl_insert {name : Str} {now : Nat} {ip : IpAddr} (ips : List IpAddr)
    (m : AList fun _ : IpAddr => Str × Nat) :
    (ips.foldl (fun m ip => m.insert ip (name, now)) m).lookup ip =
      if ip ∈ ips then some (name, now) else m.lookup ip := by
  induction ips generalizing m with
  | nil => rfl
  | cons ip' ips ih =>
      rw [List.foldl_cons, ih]
      by_cases hmem : ip ∈ ips
      · simp [hmem]
      · by_cases hip : ip = ip'
        · subst hip
          simp
        · simp [hmem, hip]

/-- Expiry only forgets. -/
theorem nameFor_expire {c : DnsCache} {now : Nat} {ip : IpAddr} {name : Str}
    (h : (c.expire now).nameFor ip = some name) : c.nameFor ip = some name := by
  obtain ⟨⟨n, t⟩, hlookup, rfl⟩ := Option.map_eq_some_iff.mp h
  have hmem := AList.mem_lookup_iff.mp (Option.mem_def.mpr hlookup)
  have hmem' : (⟨ip, (n, t)⟩ : Sigma fun _ : IpAddr => Str × Nat) ∈ c.map.entries :=
    (List.mem_filter.mp hmem).1
  rw [nameFor, Option.mem_def.mp (AList.mem_lookup_iff.mpr hmem')]
  rfl

/-- A name in the cache was there before, or is that of the answer just seen. -/
theorem nameFor_observe {c : DnsCache} {payload : List UInt8} {now : Nat} {ip : IpAddr} {name : Str}
    (h : (c.observe payload now).nameFor ip = some name) :
    c.nameFor ip = some name ∨ ∃ ips, parseResponse payload = some (name, ips) := by
  have hkept : ∀ c' : DnsCache,
      (if c'.map.entries.length > 4096 then c'.expire now else c').nameFor ip = some name →
      c'.nameFor ip = some name := by
    intro c' h
    split at h
    · exact nameFor_expire h
    · exact h
  unfold observe at h
  cases hparse : parseResponse payload with
  | none =>
      rw [hparse] at h
      exact .inl (hkept c h)
  | some learned =>
      obtain ⟨name', ips⟩ := learned
      rw [hparse] at h
      have hname := hkept _ h
      rw [nameFor, nameFor_foldl_insert] at hname
      split at hname
      · obtain rfl : name' = name := Option.some.inj hname
        exact .inr ⟨ips, rfl⟩
      · exact .inl hname

/-- What an answer just seen names is in the cache. -/
theorem nameFor_observe_empty {payload : List UInt8} {name : Str} {ip : IpAddr} {ips : List IpAddr}
    (h : parseResponse payload = some (name, ips)) (hip : ip ∈ ips) (now : Nat) :
    (empty.observe payload now).nameFor ip = some name := by
  have hlookup : (ips.foldl (fun m ip => m.insert ip (name, now)) empty.map).lookup ip =
      if ip ∈ ips then some (name, now) else empty.map.lookup ip := nameFor_foldl_insert ips _
  rw [if_pos hip] at hlookup
  have hfresh : ∀ ips : List IpAddr, ∀ m : AList fun _ : IpAddr => Str × Nat,
      (∀ e ∈ m.entries, e.2.2 = now) →
      ∀ e ∈ (ips.foldl (fun m ip => m.insert ip (name, now)) m).entries, e.2.2 = now := by
    intro ips
    induction ips with
    | nil => exact fun _ h => h
    | cons ip ips ih =>
        refine fun m hm => ih _ fun e he => ?_
        rw [AList.entries_insert, List.mem_cons] at he
        obtain rfl | he := he
        · rfl
        · exact hm e ((List.kerase_sublist _ _).subset he)
  unfold observe
  dsimp only
  rw [h]
  dsimp only
  split
  · -- nothing is old yet
    have hall : (expire ⟨ips.foldl (fun m ip => m.insert ip (name, now)) empty.map⟩ now).map =
        ips.foldl (fun m ip => m.insert ip (name, now)) empty.map := by
      apply AList.ext
      apply List.filter_eq_self.mpr
      intro e he
      rw [hfresh ips empty.map nofun e he, Nat.sub_self]
      rfl
    rw [nameFor, hall, hlookup]
    rfl
  · rw [nameFor, hlookup]
    rfl

end DnsCache

/-! ## plain labels -/

/-- Labels that are plain text for a rule: no blank, comment sign or colon in them,
no bracket or wildcard at the front, and not the dash that stands for no name. -/
structure PlainLabels (ls : List (List UInt8)) : Prop where
  plain : ∀ l ∈ ls, ∀ c ∈ utf8Lossy l, isWhitespace c = false ∧ c ≠ '#' ∧ c ≠ ':'
  bracket : ∀ l, ls.head? = some l → (utf8Lossy l).head? ≠ some '['
  wildcard : ∀ l, ls.head? = some l → ¬ ['*', '.'] <+: utf8Lossy l
  star : ∀ l, ls.head? = some l → utf8Lossy l = ['*'] → ls = [l]
  dash : ls.map utf8Lossy ≠ [['-']]

/-- A name that is one token of the policy grammar. -/
structure TokenName (name : Str) : Prop where
  plain : ∀ c ∈ name, isWhitespace c = false ∧ c ≠ '#' ∧ c ≠ ':'
  bracket : name.head? ≠ some '['
  wildcard : ¬ ['*', '.'] <+: name

theorem mem_dotted {c : Char} {ls : List (List UInt8)} (h : c ∈ dotted ls) :
    c = '.' ∨ ∃ l ∈ ls, c ∈ utf8Lossy l := by
  induction ls with
  | nil => cases h
  | cons l ls ih =>
      cases ls with
      | nil => exact .inr ⟨l, List.mem_singleton_self l, h⟩
      | cons m ls =>
          rw [dotted, List.mem_append, List.mem_cons] at h
          · obtain h | rfl | h := h
            · exact .inr ⟨l, List.mem_cons_self, h⟩
            · exact .inl rfl
            · refine (ih h).imp_right ?_
              rintro ⟨l', hl', hc⟩
              exact ⟨l', List.mem_cons_of_mem _ hl', hc⟩
          · simp

theorem subset_dotted {l : List UInt8} {ls : List (List UInt8)} (hl : l ∈ ls) :
    utf8Lossy l ⊆ dotted ls := by
  induction ls with
  | nil => cases hl
  | cons m ls ih =>
      intro c hc
      cases ls with
      | nil =>
          obtain rfl := List.mem_singleton.mp hl
          exact hc
      | cons m' ls =>
          rw [dotted, List.mem_append, List.mem_cons]
          · obtain rfl | hl := List.mem_cons.mp hl
            · exact .inl hc
            · exact .inr (.inr (ih hl hc))
          · simp

/-- A name with its first label. -/
theorem dotted_cons (l : List UInt8) (ls : List (List UInt8)) :
    dotted (l :: ls) = utf8Lossy l ++ if ls = [] then [] else '.' :: dotted ls := by
  cases ls with
  | nil => simp [dotted]
  | cons m ls => simp [dotted]

theorem wildcard_prefix_iff {s t : Str} (hs : s ≠ []) :
    ['*', '.'] <+: s ++ t ↔ ['*', '.'] <+: s ∨ s = ['*'] ∧ t.head? = some '.' := by
  match s, hs with
  | [c], _ => cases t <;> simp [List.cons_prefix_cons, eq_comm]
  | c :: d :: s, _ => simp [List.cons_prefix_cons]

theorem dotted_eq_dash_iff {l : List UInt8} {ls : List (List UInt8)} (hl : utf8Lossy l ≠ []) :
    dotted (l :: ls) = ['-'] ↔ (l :: ls).map utf8Lossy = [['-']] := by
  rw [dotted_cons]
  cases ls with
  | nil => simp
  | cons m ls =>
      have hpos := List.length_pos_iff.mpr hl
      refine iff_of_false (fun h => ?_) (by simp)
      have hlen := congrArg List.length h
      simp only [reduceCtorEq, if_false, List.length_append, List.length_cons, List.length_nil] at hlen
      omega

/-- The name that plain labels spell is one token, and only theirs is. -/
theorem tokenName_dotted_iff {ls : List (List UInt8)} (hne : ∀ l ∈ ls, l ≠ []) :
    TokenName (dotted ls) ∧ dotted ls ≠ ['-'] ↔ PlainLabels ls := by
  have hplain : (∀ c ∈ dotted ls, isWhitespace c = false ∧ c ≠ '#' ∧ c ≠ ':') ↔
      ∀ l ∈ ls, ∀ c ∈ utf8Lossy l, isWhitespace c = false ∧ c ≠ '#' ∧ c ≠ ':' := by
    constructor
    · exact fun h l hl c hc => h c (subset_dotted hl hc)
    · intro h c hc
      obtain rfl | ⟨l, hl, hc⟩ := mem_dotted hc
      · decide
      · exact h l hl c hc
  cases ls with
  | nil =>
      refine iff_of_true ⟨⟨nofun, by simp [dotted], by simp [dotted]⟩, by simp [dotted]⟩ ?_
      exact ⟨nofun, nofun, nofun, nofun, by simp⟩
  | cons l ls =>
      have hl : utf8Lossy l ≠ [] := utf8Lossy_ne_nil (hne l List.mem_cons_self)
      have hhead : (dotted (l :: ls)).head? = (utf8Lossy l).head? := by
        rw [dotted_cons, List.head?_append_of_ne_nil _ hl]
      have hwild : ['*', '.'] <+: dotted (l :: ls) ↔
          ['*', '.'] <+: utf8Lossy l ∨ utf8Lossy l = ['*'] ∧ ls ≠ [] := by
        rw [dotted_cons, wildcard_prefix_iff hl]
        cases ls <;> simp
      have hdash : dotted (l :: ls) ≠ ['-'] ↔ (l :: ls).map utf8Lossy ≠ [['-']] :=
        not_congr (dotted_eq_dash_iff hl)
      constructor
      · rintro ⟨⟨htoken, hbracket, hwildcard⟩, hnodash⟩
        rw [hwild, not_or] at hwildcard
        refine ⟨hplain.mp htoken, ?_, ?_, ?_, hdash.mp hnodash⟩
        · rintro _ ⟨⟩
          rwa [← hhead]
        · rintro _ ⟨⟩
          exact hwildcard.1
        · rintro _ ⟨⟩ hstar
          by_contra hmore
          exact hwildcard.2 ⟨hstar, fun h => hmore (by rw [h])⟩
      · intro h
        refine ⟨⟨hplain.mpr h.plain, ?_, ?_⟩, hdash.mpr h.dash⟩
        · rw [hhead]
          exact h.bracket l rfl
        · rw [hwild, not_or]
          refine ⟨h.wildcard l rfl, fun hstar => hstar.2 ?_⟩
          exact (List.cons.inj (h.star l rfl hstar.1)).2

theorem Spells.ne_nil {b : List UInt8} {off : Nat} {ls : List (List UInt8)} (h : Spells b off ls) :
    ∀ l ∈ ls, l ≠ [] := by
  induction h with
  | root => exact nofun
  | label h htag hlen hfits hrest ih =>
      rename_i len _
      intro l hl
      obtain rfl | hl := List.mem_cons.mp hl
      · have hlt : 0 < len.toNat := by
          rw [Nat.pos_iff_ne_zero]
          exact fun hz => hlen (UInt8.toNat_inj.mp hz)
        apply List.ne_nil_of_length_pos
        rw [List.length_take, List.length_drop]
        omega
      · exact ih l hl
  | pointer h htag hlo hrest ih => exact ih

/-! ## names written as rules -/

section Rules

variable [Casing] {name : Str} {exe : Option Str} {ans : Answer} {dst : IpAddr} {dport : UInt16}
  {origin : Origin}

/-- The rule for a name and a port: for one binary, or for all of them. -/
def hostRule (ans : Answer) (exe : Option Str) (name : Str) (dport : UInt16) : Entry where
  effect := if ans.approves then .allow else .deny
  scope := match exe with
    | some e => .hostFrom e (lower name) (some dport)
    | none => .host (lower name) (some dport)

/-- A name is safe to write as a rule for a binary: it is one token of the grammar,
and each line that an answer writes for it adds one line to the file, and that line
is the rule for the name and the port. -/
structure SafeName (exe : Option Str) (name : Str) : Prop where
  token : TokenName name
  line : ∀ (pol : Policy) (ans : Answer) (dst : IpAddr) (dport : UInt16) (origin : Origin),
    ans = .allowConn ∨ ans = .block →
    ∃ l, (pol.record ans exe dst (some name) dport origin).2 = some l ∧
      lineEntry l = some (hostRule ans exe name dport) ∧
      ∀ text : Option Str, NewlineTerminated (text.getD []) →
        textLines (some (appendLine text l)) = textLines text ++ [l]

omit [Casing] in
theorem TokenName.plainHost (h : TokenName name) : PlainHost name where
  space c hc := (h.plain c hc).1
  hash hc := (h.plain _ hc).2.1 rfl
  colon hc := (h.plain _ hc).2.2 rfl
  unbracketed hb := absurd hb h.bracket

/-- For a name that counts as seen, an answer about one connection stands for the
rule for it. -/
theorem answerEntry_named (hname : namedHost (some name) = some name)
    (hans : ans = .allowConn ∨ ans = .block) :
    answerEntry ans exe dst (some name) dport = some (hostRule ans exe name dport) := by
  obtain rfl | rfl := hans <;> cases exe <;> simp [answerEntry, hname, hostRule, Answer.approves]

/-- A token that is neither empty nor the dash is safe with a plain path. -/
theorem safeName_of_token (htoken : TokenName name) (hne : name ≠ []) (hdash : name ≠ ['-'])
    (hexe : ∀ e, exe = some e → PlainValue e) : SafeName exe name where
  token := htoken
  line pol ans dst dport origin hans := by
    have hname : namedHost (some name) = some name := by simp [namedHost, hne, hdash]
    have hentry : answerEntry ans exe dst (some name) dport = some (hostRule ans exe name dport) :=
      answerEntry_named hname hans
    have hsome : (pol.record ans exe dst (some name) dport origin).2.isSome = true := by
      rw [record_line_isSome, hentry]
      rfl
    obtain ⟨l, hl⟩ := Option.isSome_iff_exists.mp hsome
    have hwritable : Writable ans exe (some name) := by
      refine ⟨hexe, fun _ h hh => ?_⟩
      obtain rfl : name = h := Option.some.inj (hname.symm.trans hh)
      exact htoken.plainHost
    obtain ⟨k, v, comment, rfl, hv, hc, hden⟩ := lineEntry_recordLine hwritable hl
    refine ⟨_, hl, ?_, fun text hterm => ?_⟩
    · rw [lineEntry_ruleLine hv, hden, hentry]
    · obtain ⟨hnl, hcr⟩ := ruleLine_line (k := k) hv hc
      rw [textLines_eq text]
      exact (lines_append_line hterm hnl).trans (by rw [hcr])

omit [Casing] in
theorem splitScoped_binary {v d e : Str} (h : splitScoped v = some (d, e)) :
    e ≠ [] ∧ trim e = e ∧ ∀ c ∈ e, c ∈ v := by
  unfold splitScoped at h
  split at h
  · cases h
  · rename_i d' e' hsplit
    dsimp only at h
    split at h
    · cases h
    · rename_i hne
      obtain ⟨-, rfl⟩ := Prod.mk.inj (Option.some.inj h)
      refine ⟨(not_or.mp hne).2, trim_trim e', fun c hc => ?_⟩
      exact mem_of_splitFirst_eq_some (congrArg Prod.snd hsplit) (mem_of_mem_trim hc)

omit [Casing] in
/-- The value of a line comes from before the comment sign. -/
theorem mem_of_directive {raw v : Str} {k : Keyword} (h : directive raw = some (k, v)) {c : Char}
    (hc : c ∈ v) : c ∈ raw ∧ c ≠ '#' := by
  unfold directive at h
  dsimp only at h
  split at h
  · cases h
  · obtain ⟨k', -, hkv⟩ := Option.map_eq_some_iff.mp h
    obtain ⟨-, rfl⟩ := Prod.mk.inj hkv
    have hbody : c ∈ lineBody raw := by
      have hval : c ∈ (splitFirst isWhitespace (lineBody raw)).2.getD [] := mem_of_mem_trim hc
      cases hsplit : (splitFirst isWhitespace (lineBody raw)).2 with
      | none =>
          rw [hsplit] at hval
          cases hval
      | some t =>
          rw [hsplit] at hval
          exact mem_of_splitFirst_eq_some hsplit hval
    obtain ⟨hmem, hhash⟩ := not_of_mem_splitFirst (mem_of_mem_trim hbody)
    exact ⟨hmem, by simpa using hhash⟩

/-- The binary of a rule that is read from a line can be written on a line. -/
theorem plainValue_of_lineEntry {raw e pat : Str} {eff : Effect} {port : Option UInt16}
    (h : lineEntry raw = some ⟨eff, .hostFrom e pat port⟩) (hnl : '\n' ∉ raw) : PlainValue e := by
  obtain ⟨⟨k, v⟩, hdir, hden⟩ := Option.bind_eq_some_iff.mp h
  have hscoped : ∃ d, splitScoped v = some (d, e) := by
    cases k <;> simp only [Keyword.denotes, Option.map_eq_some_iff, Option.some.injEq, reduceCtorEq,
      Entry.mk.injEq, Scope.hostFrom.injEq, and_false, exists_false, parseHostFrom] at hden
    all_goals
      obtain ⟨_, ⟨⟨d, e'⟩, hsplit, rfl⟩, -, rfl, -⟩ := hden
      exact ⟨d, hsplit⟩
  obtain ⟨d, hsplit⟩ := hscoped
  obtain ⟨hne, htrim, hsub⟩ := splitScoped_binary hsplit
  exact ⟨hne, htrim, fun hc => (mem_of_directive hdir (hsub _ hc)).2 rfl,
    fun hc => hnl (mem_of_directive hdir (hsub _ hc)).1⟩

/-- A safe name for a binary: the path is plain, and the name is not the dash. -/
theorem SafeName.plain (h : SafeName exe name) :
    name ≠ ['-'] ∧ ∀ e, exe = some e → PlainValue e := by
  obtain ⟨l, hl, hentry, hlines⟩ := h.line .initial .allowConn (.v4 ⟨0, 0, 0, 0⟩) 0 .learned (.inl rfl)
  have hnl : '\n' ∉ l := by
    refine newline_not_mem_of_mem_lines (s := appendLine none l) ?_
    change l ∈ textLines (some (appendLine none l))
    rw [hlines none (.inl rfl)]
    exact List.mem_append_right _ (List.mem_singleton_self l)
  have hexe : ∀ e, exe = some e → PlainValue e := by
    rintro e rfl
    exact plainValue_of_lineEntry hentry hnl
  refine ⟨?_, hexe⟩
  rintro rfl
  -- a dash is no name: the rule is for the address
  have hdash : namedHost (some ['-']) = none := by decide
  have hwritable : Writable .allowConn exe (some ['-']) :=
    ⟨hexe, fun _ h hh => by rw [hdash] at hh; cases hh⟩
  obtain ⟨k, v, comment, rfl, hv, -, hden⟩ := lineEntry_recordLine hwritable hl
  rw [lineEntry_ruleLine hv, hden] at hentry
  cases exe <;> simp [answerEntry, hdash, hostRule] at hentry

end Rules

/-! ## learned names -/

variable [Casing]

/-- Every name that an answer on the network puts into the cache is safe to write
as a rule for a binary. -/
def LearnsSafely (exe : Option Str) (payload : List UInt8) : Prop :=
  ∀ (c : DnsCache) (now : Nat) (ip : IpAddr) (name : Str),
    (c.observe payload now).nameFor ip = some name → name ≠ [] →
    c.nameFor ip = some name ∨ SafeName exe name

/-- If the payload is an answer for a name, its labels are plain, and so is the
binary's path. -/
def PlainAnswer (exe : Option Str) (payload : List UInt8) : Prop :=
  (parseResponse payload).isSome = true → ∀ ls, Spells payload 12 ls → ls ≠ [] →
    PlainLabels ls ∧ ∀ e, exe = some e → PlainValue e

/-- **Learned names are safe to write** for a binary exactly when the labels of the
question's name are plain, and the binary's path can be written; so after any
answers of that kind every name in the cache is safe. -/
theorem learned_names_safe_iff (exe : Option Str) :
    (∀ payload, LearnsSafely exe payload ↔ PlainAnswer exe payload) ∧
    ∀ payloads : List (List UInt8 × Nat), (∀ p ∈ payloads, PlainAnswer exe p.1) →
      ∀ ip name, (payloads.foldl (fun c p => c.observe p.1 p.2) DnsCache.empty).nameFor ip = some name →
        name ≠ [] → SafeName exe name := by
  have hiff : ∀ payload, LearnsSafely exe payload ↔ PlainAnswer exe payload := by
    intro payload
    constructor
    · intro h hsome ls hspells hne
      obtain ⟨⟨name, ips⟩, hparse⟩ := Option.isSome_iff_exists.mp hsome
      obtain ⟨hips, ls', hspells', rfl⟩ := parseResponse_spells hparse
      obtain rfl := hspells.unique hspells'
      obtain ⟨ip, hip⟩ := List.exists_mem_of_ne_nil ips hips
      have hname : dotted ls ≠ [] := by
        obtain ⟨l, hl⟩ := List.exists_mem_of_ne_nil ls hne
        have hl' := utf8Lossy_ne_nil (hspells.ne_nil l hl)
        exact fun h => hl' (List.eq_nil_of_subset_nil (h ▸ subset_dotted hl))
      have hsafe := (h .empty 0 ip _ (DnsCache.nameFor_observe_empty hparse hip 0) hname).resolve_left
        (by simp [DnsCache.nameFor, DnsCache.empty])
      obtain ⟨hdash, hexe⟩ := hsafe.plain
      exact ⟨(tokenName_dotted_iff hspells.ne_nil).mp ⟨hsafe.token, hdash⟩, hexe⟩
    · intro h c now ip name hname hne
      obtain hold | ⟨ips, hparse⟩ := DnsCache.nameFor_observe hname
      · exact .inl hold
      · obtain ⟨-, ls, hspells, rfl⟩ := parseResponse_spells hparse
        have hls : ls ≠ [] := fun h => hne (h ▸ rfl)
        obtain ⟨hplain, hexe⟩ := h (by rw [hparse]; rfl) ls hspells hls
        obtain ⟨htoken, hdash⟩ := (tokenName_dotted_iff hspells.ne_nil).mpr hplain
        exact .inr (safeName_of_token htoken hne hdash hexe)
  refine ⟨hiff, fun payloads => ?_⟩
  induction payloads using List.reverseRecOn with
  | nil => exact fun _ ip name h => by simp [DnsCache.nameFor, DnsCache.empty] at h
  | append_singleton payloads p ih =>
      intro hplain ip name h hne
      rw [List.foldl_append] at h
      have hlast := (hiff p.1).mpr (hplain p (by simp))
      obtain hold | hsafe := hlast _ _ ip name h hne
      · exact ih (fun q hq => hplain q (by simp [hq])) ip name hold hne
      · exact hsafe

omit [Casing] in
/-- An answer with one address for the name of some labels. -/
def answerFor (ls : List (List UInt8)) : List UInt8 :=
  [0, 1, 0x80, 0, 0, 1, 0, 1, 0, 0, 0, 0] ++ ls.flatMap (fun l => UInt8.ofNat l.length :: l) ++
    [0, 0, 1, 0, 1] ++ [0xc0, 12, 0, 1, 0, 1, 0, 0, 0, 0, 0, 4, 192, 0, 2, 1]

omit [Casing] in
/-- An answer for `a.bc` teaches a name that is safe to write for `/a`. -/
theorem learned_names_safe_plain :
    letI := asciiCasing
    let payload := answerFor [[0x61], [0x62, 0x63]]
    (DnsCache.empty.observe payload 0).nameFor (.v4 ⟨192, 0, 2, 1⟩) = some "a.bc".toList ∧
      SafeName (some "/a".toList) "a.bc".toList := by
  let _ := asciiCasing
  intro payload
  have hspells : Spells payload 12 [[0x61], [0x62, 0x63]] :=
    @Spells.label payload 12 1 [[0x62, 0x63]] rfl (by decide) (by decide) (by decide) <|
      @Spells.label payload 14 2 [] rfl (by decide) (by decide) (by decide) <| .root rfl
  have hname : (DnsCache.empty.observe payload 0).nameFor (.v4 ⟨192, 0, 2, 1⟩) =
      some "a.bc".toList := by decide
  have hplain : PlainAnswer (some "/a".toList) payload := by
    rintro - ls hls -
    obtain rfl := hspells.unique hls
    constructor
    · refine ⟨by decide, ?_, ?_, ?_, by decide⟩ <;> rintro _ ⟨⟩
      · decide
      · decide
      · intro h
        cases h
    · rintro e ⟨⟩
      exact ⟨by decide, by decide, by decide, by decide⟩
  have hall : ∀ p ∈ [(payload, 0)], PlainAnswer (some "/a".toList) p.1 := by
    intro p hp
    obtain rfl := List.mem_singleton.mp hp
    exact hplain
  have hsafe := (learned_names_safe_iff (some "/a".toList)).2 _ hall (.v4 ⟨192, 0, 2, 1⟩)
    "a.bc".toList
  rw [List.foldl_cons, List.foldl_nil] at hsafe
  exact ⟨hname, hsafe hname (by decide)⟩

omit [Casing] in
/-- The label `a⏎allow-app /b #` is stored as it is, and written as the name of a rule it
allows `/b` everything. -/
theorem learned_name_adds_rule :
    letI := asciiCasing
    (¬ ∀ payload, LearnsSafely (some "/a".toList) payload) ∧
    ∃ payload name l, (DnsCache.empty.observe payload 0).nameFor (.v4 ⟨192, 0, 2, 1⟩) = some name ∧
      (Policy.initial.record .allowConn (some "/a".toList) (.v4 ⟨192, 0, 2, 1⟩) (some name) 443
        .learned).2 = some l ∧
      (Policy.load (some (appendLine none l))).decide (some "/b".toList) (.v4 ⟨198, 51, 100, 1⟩)
        none 22 = .allow := by
  let _ := asciiCasing
  have hname : (DnsCache.empty.observe (answerFor [utf8Bytes "a\nallow-app /b #".toList]) 0).nameFor
      (.v4 ⟨192, 0, 2, 1⟩) = some "a\nallow-app /b #".toList := by decide
  constructor
  · intro h
    have hsafe := (h _ .empty 0 _ _ hname (by decide)).resolve_left
      (by simp [DnsCache.nameFor, DnsCache.empty])
    exact absurd (hsafe.token.plain '\n' (by decide)).1 (by decide)
  · exact ⟨_, _, _, hname, rfl, by decide⟩

end Pfsnitch
