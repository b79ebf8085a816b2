import Pfsnitch.Cli.Commands
import Pfsnitch.Removes
import Pfsnitch.Watermark

/-!
# Pfsnitch.Commands

What the commands promise: a rule is removed by the words that `rules` prints for it.
-/

namespace Pfsnitch

open Lib

variable {r : Rule} {text s t : Str} {args : List Str} {n : Nat}

/-! ## the words of a line -/

/-- What separates two words of a command. -/
def isBlank (c : Char) : Bool := c = ' ' || c = '\t'

/-- The words that a shell makes of a line, to which no character but a blank is special. -/
def shellWords (s : Str) : List Str := (s.splitOnP isBlank).filter (· ≠ [])

/-- The words joined by single blanks. -/
def squeeze (s : Str) : Str := [' '].intercalate (shellWords s)

@[simp] theorem shellWords_nil : shellWords [] = [] := rfl

theorem shellWords_append {c : Char} (hc : isBlank c = true) (s t : Str) :
    shellWords (s ++ c :: t) = shellWords s ++ shellWords t := by
  rw [shellWords, List.splitOnP_append_cons s t hc, List.filter_append]
  rfl

theorem shellWords_of_token (h : ∀ c ∈ s, isBlank c = false) (hne : s ≠ []) :
    shellWords s = [s] := by
  rw [shellWords, List.splitOnP_eq_singleton h]
  simp [hne]

theorem shellWords_padRight (n : Nat) (s : Str) : shellWords (padRight n s) = shellWords s := by
  rw [padRight]
  induction n - s.length with
  | zero => rw [List.replicate_zero, List.append_nil]
  | succ k ih =>
      rw [List.replicate_succ', ← List.append_assoc, shellWords_append rfl, ih, shellWords_nil,
        List.append_nil]

theorem mem_of_mem_splitOnP {α : Type} {p : α → Bool} {s w : List α} (hw : w ∈ s.splitOnP p)
    {c : α} (hc : c ∈ w) : c ∈ s ∧ p c = false := by
  induction s generalizing w c with
  | nil =>
      rw [List.splitOnP_nil, List.mem_singleton] at hw
      exact absurd (hw ▸ hc) List.not_mem_nil
  | cons a s ih =>
      have hlater {w' : List α} (hw' : w' ∈ s.splitOnP p) {c : α} (hc : c ∈ w') :
          c ∈ a :: s ∧ p c = false :=
        (ih hw' hc).imp (List.mem_cons_of_mem a) id
      rw [List.splitOnP_cons_eq_if_modifyHead] at hw
      split at hw
      · obtain rfl | hw := List.mem_cons.mp hw
        · exact absurd hc List.not_mem_nil
        · exact hlater hw hc
      · rename_i ha
        obtain ⟨x, xs, hxs⟩ := List.exists_cons_of_ne_nil (List.splitOnP_ne_nil p s)
        rw [hxs, List.modifyHead_cons, List.mem_cons] at hw
        rw [hxs] at hlater
        obtain rfl | hw := hw
        · obtain rfl | hc := List.mem_cons.mp hc
          · exact ⟨List.mem_cons_self, Bool.not_eq_true _ ▸ ha⟩
          · exact hlater List.mem_cons_self hc
        · exact hlater (List.mem_cons_of_mem x hw) hc

/-- A word comes from the line, and has no blank. -/
theorem mem_of_mem_shellWords {w : Str} (hw : w ∈ shellWords s) {c : Char} (hc : c ∈ w) :
    c ∈ s ∧ isBlank c = false :=
  mem_of_mem_splitOnP (List.mem_filter.mp hw).1 hc

/-- A line with something on it has a word. -/
theorem shellWords_ne_nil {c : Char} (hc : c ∈ s) (hblank : isBlank c = false) :
    shellWords s ≠ [] := by
  have hpiece : ∃ w ∈ s.splitOnP isBlank, w ≠ [] := by
    induction s with
    | nil => cases hc
    | cons a s ih =>
        rw [List.splitOnP_cons_eq_if_modifyHead]
        split
        · rename_i ha
          obtain rfl | hc := List.mem_cons.mp hc
          · rw [ha] at hblank
            cases hblank
          · obtain ⟨w, hw, hne⟩ := ih hc
            exact ⟨w, List.mem_cons_of_mem _ hw, hne⟩
        · obtain ⟨x, xs, hxs⟩ := List.exists_cons_of_ne_nil (List.splitOnP_ne_nil isBlank s)
          rw [hxs, List.modifyHead_cons]
          exact ⟨a :: x, List.mem_cons_self, List.cons_ne_nil a x⟩
  obtain ⟨w, hw, hne⟩ := hpiece
  exact List.ne_nil_of_mem (List.mem_filter.mpr ⟨hw, decide_eq_true hne⟩)

/-! ## pasting a listed rule -/

/-- A word that begins a comment. -/
def opensComment (w : Str) : Bool := w.head? = some '#'

/-- `pfsnitch rm` with the words of the line that `rules` prints, up to its comment. -/
def Rule.pasted (r : Rule) : List Str :=
  ["pfsnitch".toList, "rm".toList] ++ (shellWords r.display).takeWhile (!opensComment ·)

/-- The words are written like the rule: all of them, if it is scoped, or else the first. -/
def Rule.Pastable [Casing] (r : Rule) : Prop :=
  if isFromKind r.kind then normalise r.kind (squeeze r.value) = normalise r.kind r.value
  else ∃ w, (shellWords r.value).head? = some w ∧ normalise r.kind w = normalise r.kind r.value

/-- `pfsnitch rm` with the kind and the value, each as one word. -/
def Rule.quoted (r : Rule) : List Str := ["pfsnitch".toList, "rm".toList, r.kind, r.value]

theorem hash_not_mem_value {raw : Str} (h : parseLine raw = some r) : '#' ∉ r.value := by
  obtain ⟨-, -, rfl⟩ := parseLine_eq_some_iff.mp h
  intro hmem
  have hbody : '#' ∈ lineBody raw := mem_of_mem_keyValue hmem
  exact absurd (not_of_mem_splitFirst (p := (· == '#')) (mem_of_mem_trim hbody)).2 (by decide)

/-- The words are those of the kind and the value. -/
theorem pasted_eq (h : r ∈ rules (some text)) :
    r.pasted = "pfsnitch".toList :: "rm".toList :: r.kind :: shellWords r.value := by
  obtain ⟨hparsed, hkind⟩ := List.mem_filter.mp h
  obtain ⟨raw, -, hparse⟩ := List.mem_filterMap.mp hparsed
  have hkinds : ∀ k ∈ KINDS, (∀ c ∈ k, isBlank c = false) ∧ k ≠ [] ∧ opensComment k = false := by
    decide
  obtain ⟨htoken, hne, hhead⟩ := hkinds r.kind (of_decide_eq_true hkind)
  have hvalue : ∀ w ∈ shellWords r.value, (!opensComment w) = true := by
    intro w hw
    rw [Bool.not_eq_true', opensComment, decide_eq_false_iff_not]
    intro hw'
    exact hash_not_mem_value hparse (mem_of_mem_shellWords hw (List.mem_of_mem_head? hw')).1
  have hwords : shellWords r.display = r.kind :: (shellWords r.value ++
      r.comment.elim [] fun c => ['#'] :: shellWords c) := by
    rw [Rule.display, shellWords_append rfl, shellWords_padRight, shellWords_of_token htoken hne]
    cases r.comment with
    | none => simp
    | some c =>
        have hshape : padRight 44 r.value ++ " # ".toList ++ c =
            padRight 44 r.value ++ ' ' :: (['#'] ++ ' ' :: c) := by simp
        dsimp only
        rw [hshape, shellWords_append rfl, shellWords_append rfl, shellWords_padRight,
          shellWords_of_token (s := ['#']) (by decide) (by decide)]
        rfl
  rw [Rule.pasted, hwords, List.takeWhile_cons_of_pos (by rw [hhead]; rfl),
    List.takeWhile_append_of_pos hvalue]
  cases r.comment with
  | none => simp
  | some c => simp [opensComment]

theorem isBlank_of_not_isWhitespace {c : Char} (h : isWhitespace c = false) : isBlank c = false := by
  by_contra hblank
  simp only [isBlank, Bool.not_eq_false, Bool.or_eq_true, decide_eq_true_eq] at hblank
  obtain rfl | rfl := hblank <;> exact absurd h (by decide)

/-- A value has a word. -/
theorem shellWords_value_ne_nil {raw : Str} (h : parseLine raw = some r) :
    shellWords r.value ≠ [] := by
  obtain ⟨-, hne, rfl⟩ := parseLine_eq_some_iff.mp h
  have htrim : trim (keyValue (lineBody raw)).2 = (keyValue (lineBody raw)).2 := trim_trim _
  exact shellWords_ne_nil (List.head_mem hne)
    (isBlank_of_not_isWhitespace ((trim_eq_self_iff.mp htrim).1 hne))

variable [Casing]

/-! ## what `rm` does -/

/-- The rules that `remove_rule` takes for this one. -/
def spelled (kind value : Str) (r : Rule) : Bool :=
  r.kind == kind && normalise r.kind r.value == normalise kind value

theorem spelled_self (r : Rule) : spelled r.kind r.value = r.alike := rfl

/-- A rule is hit under another spelling exactly when the two are written alike. -/
theorem spelled_iff {v : Str} :
    spelled r.kind v r = true ↔ normalise r.kind v = normalise r.kind r.value := by
  rw [spelled, Bool.and_eq_true, beq_iff_eq, beq_iff_eq]
  exact ⟨fun h => h.2.symm, fun h => ⟨rfl, h.symm⟩⟩

theorem spelled_congr {kind v v' : Str} (h : normalise kind v = normalise kind v') :
    spelled kind v = spelled kind v' := by
  funext r
  rw [spelled, spelled, h]

omit [Casing] in
theorem readToString_utf8Bytes (t : Str) : readToString (some (utf8Bytes t)) = some t :=
  decodeUtf8_utf8Bytes t

/-- `remove_rule` on a text, when nothing fails. -/
theorem storedRemove_eq (kind value text : Str) :
    storedRemove kind value ⟨true, true⟩ (some (utf8Bytes text)) =
      (some ((lines text).countP (hitLine (spelled kind value))),
        some (utf8Bytes (sweepLeaves (spelled kind value) text))) := by
  have hsweep : removeRule kind value text = sweep (spelled kind value) text := rfl
  rw [storedRemove, readText, if_pos rfl, readToString_utf8Bytes]
  dsimp only
  rw [hsweep, sweep_hitLine]
  dsimp only
  split
  · rename_i hpos
    rw [sweepLeaves_of_pos hpos]
    rfl
  · rename_i hzero
    have hzero := Nat.eq_zero_of_not_pos hzero
    rw [sweepLeaves_of_zero hzero, hzero]

/-- `rm` of a rule in any spelling. -/
theorem cmdRm_eq {kind value : Str} (h : rmArgs args = some (kind, value)) :
    cmdRm args ⟨true, true⟩ (some (utf8Bytes text)) =
      (if (lines text).countP (hitLine (spelled kind value)) = 0 then .noSuchRule kind value
        else .removed ((lines text).countP (hitLine (spelled kind value))),
        some (utf8Bytes (sweepLeaves (spelled kind value) text))) := by
  rw [cmdRm, h]
  dsimp only
  rw [storedRemove_eq]
  cases (lines text).countP (hitLine (spelled kind value)) <;> rfl

omit [Casing] in
/-- A rule that is not hit is still listed. -/
theorem mem_rules_sweepLeaves {hit : Rule → Bool} (h : r ∈ rules (some text)) :
    r ∈ rules (some (sweepLeaves hit text)) ↔ hit r = false := by
  obtain ⟨hparsed, hkind⟩ := List.mem_filter.mp h
  have hleaves : parsed (some (sweepLeaves hit text)) =
      ((lines text).filter (!hitLine hit ·)).filterMap parseLine :=
    filterMap_lines_sweepLeaves parseLine_stripCr
  rw [rules, List.mem_filter, hleaves, List.mem_filterMap, and_iff_left hkind]
  constructor
  · rintro ⟨raw, hraw, hparse⟩
    have hmiss := (List.mem_filter.mp hraw).2
    rw [hitLine, hparse, Option.any_some, Bool.not_eq_true'] at hmiss
    exact hmiss
  · intro hmiss
    obtain ⟨raw, hraw, hparse⟩ := List.mem_filterMap.mp hparsed
    refine ⟨raw, List.mem_filter.mpr ⟨hraw, ?_⟩, hparse⟩
    rw [hitLine, hparse, Option.any_some, hmiss]
    rfl

/-! ## what pasting does -/

omit [Casing] in
theorem rmArgs_quoted (hkind : r.kind ∈ KINDS) : rmArgs r.quoted = some (r.kind, r.value) := by
  rw [rmArgs, Rule.quoted]
  simp [hkind]

omit [Casing] in
/-- The value that `rm` is given by pasting. -/
theorem rmArgs_pasted (h : r ∈ rules (some text)) :
    ∃ v w, (shellWords r.value).head? = some w ∧
      v = (if isFromKind r.kind then squeeze r.value else w) ∧
      rmArgs r.pasted = some (r.kind, v) := by
  obtain ⟨hparsed, hkind⟩ := List.mem_filter.mp h
  obtain ⟨raw, -, hparse⟩ := List.mem_filterMap.mp hparsed
  obtain ⟨w, ws, hws⟩ := List.exists_cons_of_ne_nil (shellWords_value_ne_nil hparse)
  refine ⟨_, w, by rw [hws]; rfl, rfl, ?_⟩
  have hk : r.kind ∈ KINDS := of_decide_eq_true hkind
  rw [pasted_eq h, rmArgs, hws, squeeze, hws]
  simp [hk]

theorem pastable_iff {v w : Str} (hw : (shellWords r.value).head? = some w)
    (hv : v = if isFromKind r.kind then squeeze r.value else w) :
    r.Pastable ↔ normalise r.kind v = normalise r.kind r.value := by
  rw [Rule.Pastable]
  split
  · rename_i hfrom
    rw [hv, if_pos hfrom]
  · rename_i hfrom
    rw [hv, if_neg hfrom, hw]
    simp

/-- The path of a binary can be pasted unless it has a blank. -/
theorem pastable_app_iff (hkind : r.kind = Keyword.allowApp.text ∨ r.kind = Keyword.denyApp.text)
    (hne : r.value ≠ []) : r.Pastable ↔ ∀ c ∈ r.value, isBlank c = false := by
  have hplain : isFromKind r.kind = false ∧ ∀ v : Str, normalise r.kind v = v := by
    obtain hk | hk := hkind <;> rw [hk] <;> exact ⟨by decide, fun v => rfl⟩
  rw [Rule.Pastable, if_neg (by rw [hplain.1]; exact Bool.false_ne_true)]
  simp only [hplain.2]
  constructor
  · rintro ⟨w, hw, rfl⟩ c hc
    exact (mem_of_mem_shellWords (List.mem_of_mem_head? hw) hc).2
  · intro htoken
    exact ⟨r.value, by rw [shellWords_of_token htoken hne]; rfl, rfl⟩

/-- **Copy and paste.**  The words that `rules` prints for a rule, given to `rm`, remove the
rule exactly when they are written like it, and then as if it had been given in quotes.  A
scoped rule with single blanks is, and the rule of a binary unless its path has a blank. -/
theorem pasted_rule_removed (h : r ∈ rules (some text)) :
    (r ∉ rules (readToString (cmdRm r.pasted ⟨true, true⟩ (some (utf8Bytes text))).2) ↔
      r.Pastable) ∧
    (r.Pastable → ∃ n, 0 < n ∧ ∀ args, args = r.pasted ∨ args = r.quoted →
      cmdRm args ⟨true, true⟩ (some (utf8Bytes text)) =
        (.removed n, some (utf8Bytes (sweepLeaves r.alike text)))) ∧
    (isFromKind r.kind = true → squeeze r.value = r.value → r.Pastable) ∧
    (r.kind = Keyword.allowApp.text ∨ r.kind = Keyword.denyApp.text →
      (r.Pastable ↔ ∀ c ∈ r.value, isBlank c = false)) := by
  obtain ⟨v, w, hw, hv, hargs⟩ := rmArgs_pasted h
  have hpaste := pastable_iff hw hv
  have hquoted := rmArgs_quoted (r := r) (of_decide_eq_true (List.mem_filter.mp h).2)
  obtain ⟨raw, -, hparse⟩ := List.mem_filterMap.mp (List.mem_filter.mp h).1
  refine ⟨?_, fun hp => ?_, fun hfrom hsingle => ?_, fun hkind => ?_⟩
  · rw [cmdRm_eq hargs, readToString_utf8Bytes, mem_rules_sweepLeaves h, hpaste, ← spelled_iff,
      Bool.not_eq_false]
  · have hpos := countP_alike_pos h
    refine ⟨_, hpos, ?_⟩
    rintro args (rfl | rfl)
    · rw [cmdRm_eq hargs, spelled_congr (hpaste.mp hp), spelled_self, if_neg (Nat.ne_of_gt hpos)]
    · rw [cmdRm_eq hquoted, spelled_self, if_neg (Nat.ne_of_gt hpos)]
  · rw [hpaste, hv, if_pos hfrom, hsingle]
  · exact pastable_app_iff hkind (value_ne_nil_of_parseLine hparse)

omit [Casing] in
/-- A binary with a blank in its path, in a scoped rule and in a rule of its own: the one can
be pasted, and of the other the path up to the blank is removed, which is another rule. -/
theorem pasted_rule_removed_blank :
    letI := asciiCasing
    let text := "deny-host-from Example.COM:443 /opt/my app\n" ++
      "allow-app /opt/my app\nallow-app /opt/my\n"
    let pair : Rule := ⟨Keyword.denyHostFrom.text, "Example.COM:443 /opt/my app".toList, none⟩
    let app : Rule := ⟨Keyword.allowApp.text, "/opt/my app".toList, none⟩
    pair.Pastable ∧ ¬ app.Pastable ∧
      app ∈ rules (readToString (cmdRm app.pasted ⟨true, true⟩ (some (utf8Bytes text.toList))).2) := by
  let _ := asciiCasing
  intro text pair app
  have hfrom : pair ∈ rules (some text.toList) := by decide +kernel
  have happ : app ∈ rules (some text.toList) := by decide +kernel
  have hblank : ¬ app.Pastable := by
    rw [(pasted_rule_removed happ).2.2.2 (.inl rfl)]
    decide
  refine ⟨(pasted_rule_removed hfrom).2.2.1 (by decide) (by decide), hblank, ?_⟩
  by_contra hgone
  exact hblank ((pasted_rule_removed happ).1.mp hgone)

/-! ## what `allow` and `deny` do -/

section Adds

variable {kind value : Str} {note : Option Str} {read : Bool} {w : WriteResult}
  {file : Option (List UInt8)}

theorem addRule_invalid {er : InvalidInput} (h : addError kind value = some er) :
    addRule kind value note read w file = (some (.invalid er), file) := by
  simp [addRule, Edit.run, h]

theorem addRule_present (h : addError kind value = none)
    (hdup : hasRule kind value (readText read file) = true) :
    addRule kind value note read w file = (some (.added false), file) := by
  simp [addRule, Edit.run, h, hdup]

theorem addRule_written (h : addError kind value = none)
    (hdup : hasRule kind value (readText read file) = false) :
    addRule kind value note read .written file =
      (some (.added true), some (appendBytes file (addLine kind value note))) := by
  simp [addRule, Edit.run, h, hdup]

theorem addRule_failed {left : Option (List UInt8)} (h : addError kind value = none)
    (hdup : hasRule kind value (readText read file) = false) :
    addRule kind value note read (.failed left) file = (none, left) := by
  simp [addRule, Edit.run, h, hdup]

/-- On a file that can be read it is the call that is proved to add its rule once. -/
theorem addRule_read : addRule kind value note true w file = storedAdd kind value note w file := by
  have hread : readText true file = readToString file := rfl
  cases haccept : addError kind value with
  | some er => rw [addRule_invalid haccept, storedAdd_invalid haccept]
  | none =>
      cases hdup : hasRule kind value (readToString file) with
      | true => rw [addRule_present haccept (hread ▸ hdup), storedAdd_present haccept hdup]
      | false =>
          cases w with
          | written =>
              rw [addRule_written haccept (hread ▸ hdup), storedAdd_written haccept hdup,
                appendBytes]
          | failed => rw [addRule_failed haccept (hread ▸ hdup), storedAdd_failed haccept hdup]

end Adds

/-! ## what `status` shows -/

omit [Casing] in
/-- The words that make a daemon are those of `MODES`. -/
theorem isRun_command : (command args).isRun = args[1]?.any (· ∈ Procinfo.MODES) := by
  have hword : ∀ p ∈ commands, p.2.isRun = decide (p.1 ∈ Procinfo.MODES) := by decide
  have hmodes : ∀ word ∈ Procinfo.MODES, (commands.lookup word).isSome := by decide
  rw [command]
  cases args[1]? with
  | none => rfl
  | some word =>
      rw [Option.getD_some, Option.any_some]
      cases hlookup : commands.lookup word with
      | none =>
          have hno : word ∉ Procinfo.MODES := fun hmem => by
            have hsome := hmodes word hmem
            rw [hlookup] at hsome
            cases hsome
          exact (decide_eq_false hno).symm
      | some c =>
          obtain ⟨l₁, l₂, hl, -⟩ := List.lookup_eq_some_iff.mp hlookup
          exact hword (word, c) (by rw [hl]; simp)

omit [Casing] in
/-- Arguments are a daemon's when they are of this program and `main` runs the loop on them. -/
theorem isDaemon_eq (argv : List (List UInt8)) : Procinfo.isDaemon argv =
    ((argv.map utf8Lossy).head?.any (basename · = "pfsnitch".toList) &&
      (command (argv.map utf8Lossy)).isRun) := by
  rw [isRun_command, Procinfo.isDaemon, List.map_take, List.head?_take, List.getElem?_take]
  rfl

omit [Casing] in
/-- Every item has one of the keys, and none has two. -/
theorem sum_countP {ks : List Str} {rs : List Rule} (hnodup : ks.Nodup)
    (hmem : ∀ r ∈ rs, r.kind ∈ ks) :
    (ks.map fun k => rs.countP (·.kind == k)).sum = rs.length := by
  induction ks generalizing rs with
  | nil =>
      cases rs with
      | nil => rfl
      | cons r rs => exact absurd (hmem r List.mem_cons_self) List.not_mem_nil
  | cons k ks ih =>
      obtain ⟨hk, hnodup⟩ := List.nodup_cons.mp hnodup
      -- the items of the other keys
      have hrest : ∀ r ∈ rs.filter (fun r => !(r.kind == k)), r.kind ∈ ks := by
        intro r hr
        obtain ⟨hr, hne⟩ := List.mem_filter.mp hr
        exact (List.mem_cons.mp (hmem r hr)).resolve_left (by simpa using hne)
      have hcount : ∀ k' ∈ ks, rs.countP (·.kind == k') =
          (rs.filter fun r => !(r.kind == k)).countP (·.kind == k') := by
        intro k' hk'
        rw [List.countP_filter]
        refine List.countP_congr fun r _ => ?_
        have hne : k' ≠ k := fun h => hk (h ▸ hk')
        simp only [beq_iff_eq, Bool.and_eq_true, Bool.not_eq_true', beq_eq_false_iff_ne]
        exact ⟨fun h => ⟨h, h ▸ hne⟩, And.left⟩
      rw [List.map_cons, List.sum_cons, List.map_congr_left hcount, ih hnodup hrest,
        ← List.countP_eq_length_filter,
        List.length_eq_countP_add_countP (l := rs) fun r : Rule => r.kind == k]
      exact congrArg _ (List.countP_congr fun r _ => by simp)

variable {w w' : World} {d d' : Daemon} {ev : Event} {inp : Input} {o : List Output}

omit [Casing] in
/-- The mode in memory is that of the policy in memory, or the one it was started with. -/
def Daemon.Moded (d : Daemon) : Prop := d.mode = d.pol.modeOr d.fallback

omit [Casing] in
theorem Daemon.Moded.congr (h : d.Moded) (hpol : d'.pol.mode = d.pol.mode)
    (hmode : d'.mode = d.mode) (hfallback : d'.fallback = d.fallback) : d'.Moded := by
  rw [Daemon.Moded, hmode, h, Policy.modeOr, Policy.modeOr, hpol, hfallback]

theorem PacketCase.moded {pkt : Packet} {src : Sockaddr} {r : Handled} {os : Os}
    (hcase : PacketCase inp os d pkt src r) (h : d.Moded) : r.daemon.Moded := by
  obtain ⟨hmode, hfallback, -⟩ := hcase.keeps
  refine h.congr ?_ hmode hfallback
  obtain ⟨-, hpol, -⟩ | ⟨f, kern, pol, ls, -, -, hl, rfl⟩ := hcase.policy
  · exact congrArg Policy.mode hpol
  · exact (congrArg (·.1.mode) hl).symm.trans learned_mode

theorem MainStep.moded (hstep : MainStep inp w.os d w' o) (hd' : w'.daemon = some d')
    (h : d.Moded) : d'.Moded := by
  cases hstep with
  | moves =>
      obtain rfl := Option.some.inj hd'
      exact h
  | exits => cases hd'
  | answer hpc hrx hdrain =>
      obtain rfl := Option.some.inj hd'
      obtain ⟨_, _, pol, ls, -, ha, -, rfl⟩ := drainAnswer_cases hdrain
      exact h.congr ((congrArg (·.1.mode) ha).symm.trans answered_mode) rfl rfl
  | upcall hpc hurx hdrain =>
      obtain rfl := Option.some.inj hd'
      cases drainUpcall_cases hdrain with
      | resolved => exact h
      | asked hpath hv hraise =>
          obtain ⟨⟨_, _, rfl⟩, -⟩ := raise_cases hraise
          exact h
  | @effect op _ _ _ _ _ hpc hrun =>
      obtain ⟨d₁, rfl, rfl⟩ := Option.map_eq_some_iff.mp hd'
      obtain ⟨hfallback, -⟩ := Op.run_polMtime hrun
      by_cases hload : op = .loadPolicy ∨ op = .reload
      · obtain ⟨hpol, hmode⟩ := Op.run_loads hrun hload
        rw [← hpol] at hmode
        exact hmode
      · obtain ⟨hpol, hmode⟩ := (Op.run_keeps hrun).pol (fun h => hload (.inl h))
          fun h => hload (.inr h)
        exact h.congr (congrArg Policy.mode hpol) hmode hfallback
  | packet hpc hpkt hr =>
      obtain rfl := Option.some.inj hd'
      exact (hr ▸ handlePacket_cases inp w.os d _ _).moded h

/-- In every run the mode is that of the policy in memory. -/
theorem reachable_moded {ok : World → Event → Prop} (hw : Reachable ok w)
    (hd : w.daemon = some d) : d.Moded := by
  obtain ⟨w₀, hinit, hrun⟩ := hw
  refine hrun.invariant (P := fun w => ∀ d, w.daemon = some d → d.Moded) hinit.no_daemon ?_ d hd
  rintro w ev w' o hinv - hstep d' hd'
  obtain ⟨inp, d, rfl, hd, hmain⟩ | hout := step_cases hstep
  · exact hmain.moded hd' (hinv d hd)
  · obtain hnone | ⟨fallback, -, hnew⟩ | ⟨d, d₁, hd, hd₁, _, _, _, _, _, rfl⟩ := hout.daemon
    · rw [hnone] at hd'
      cases hd'
    · obtain rfl := Option.some.inj (hnew.symm.trans hd')
      rfl
    · obtain rfl := Option.some.inj (hd₁.symm.trans hd')
      exact (hinv d hd).congr rfl rfl rfl

/-- **What `status` shows.**  A daemon is shown to run exactly when another process, whose
arguments can be had, was called such that `main` runs the loop.  In every state of every run
in which the policy in memory is the file's, the mode that is shown is the daemon's exactly
when the file sets one or the daemon was started in visibility.  And the counts of the kinds
make up the total. -/
theorem status_shows (me : Int) (procs : Option (List (Int × Option (List (List UInt8)))))
    (env : Option Str) (hw : Reachable (fun _ _ => True) w) (hd : w.daemon = some d)
    (hpol : d.pol = Policy.loadFile w.os.policyData) :
    let status := cmdStatus (Procinfo.daemonRunning me procs) env w.os.policyData
    (status.running = true ↔ ∃ p ∈ procs.getD [], p.1 ≠ me ∧
      ∃ argv, p.2.map (·.map utf8Lossy) = some argv ∧
        argv.head?.any (basename · = "pfsnitch".toList) = true ∧ (command argv).isRun = true) ∧
    (status.mode = d.mode ↔ d.pol.mode.isSome ∨ d.fallback = .visibility) ∧
    (status.counts.map (·.2)).sum = status.total := by
  refine ⟨?_, ?_, ?_⟩
  · have hany (p : Int × Option (List (List UInt8))) : p.2.any Procinfo.isDaemon = true ↔
        ∃ argv, p.2.map (·.map utf8Lossy) = some argv ∧
          argv.head?.any (basename · = "pfsnitch".toList) = true ∧ (command argv).isRun = true := by
      rw [Option.any_eq_true]
      simp [isDaemon_eq]
    simp only [cmdStatus, Procinfo.daemonRunning, List.any_eq_true, Bool.and_eq_true,
      decide_eq_true_eq, hany]
  · have hmode : d.mode = d.pol.modeOr d.fallback := reachable_moded hw hd
    simp only [cmdStatus, ← hpol, hmode, Policy.modeOr]
    cases d.pol.mode with
    | none => simp [eq_comm]
    | some m => simp
  · simp only [cmdStatus, List.map_map]
    exact sum_countP (by decide) fun r hr => of_decide_eq_true (List.mem_filter.mp hr).2

omit [Casing] in
/-- A daemon that is started in enforcement, under a file that sets no mode: `status` finds it,
next to a process whose arguments cannot be had, and shows another mode. -/
theorem status_shows_fallback :
    letI := asciiCasing
    ∃ (w : World) (d : Daemon), Reachable (fun _ _ => True) w ∧ w.daemon = some d ∧
      let args := ["/usr/local/bin/pfsnitch", "enforcement"].map fun s => utf8Bytes s.toList
      let running := Procinfo.daemonRunning 8 (some [(1, none), (7, some args)])
      let status := cmdStatus running none w.os.policyData
      status.running = true ∧ status.mode ≠ d.mode := by
  let _ := asciiCasing
  obtain ⟨w, hw, hp⟩ := exists_reachable_of_exec (fun w ev => NoticedCalm w ev = true)
    (World.withPolicy "deny-dest 192.0.2.1\n") ⟨rfl, rfl⟩ (startEvents .enforcement 9)
    (fun w => w.daemon.any fun d => d.pc = .recv ∧ d.polMtime = w.os.policyMtime ∧
      d.pol.mode = none ∧ d.fallback = .enforcement)
    (by decide +kernel)
  obtain ⟨d, hd, hp⟩ := (Option.any_eq_true _ _).mp hp
  rw [decide_eq_true_eq] at hp
  obtain ⟨hrecv, hmtime, hmode, hfallback⟩ := hp
  have hops : d.pc.ops = [] := by rw [hrecv, Pc.ops]
  have hnone : ∀ op, op ∉ d.pc.ops := fun op => hops ▸ List.not_mem_nil
  have hpol : d.pol = Policy.loadFile w.os.policyData :=
    ((reachable_watched (hw.mono fun _ _ => noticed_of_calm) hd).running (hnone _) (hnone _)
      (hnone _) hmtime).pol
  have hw : Reachable (fun _ _ => True) w := hw.mono fun _ _ _ => trivial
  let args := ["/usr/local/bin/pfsnitch", "enforcement"].map fun s => utf8Bytes s.toList
  obtain ⟨hrunning, hshown, -⟩ := status_shows 8 (some [(1, none), (7, some args)]) none hw hd hpol
  refine ⟨w, d, hw, hd, hrunning.mpr ⟨(7, some args), by decide +kernel, by decide, _, rfl,
    by decide +kernel, by decide +kernel⟩, ?_⟩
  intro hsame
  have hcase := hshown.mp hsame
  rw [hmode, hfallback] at hcase
  exact absurd hcase (by decide)

end Pfsnitch
