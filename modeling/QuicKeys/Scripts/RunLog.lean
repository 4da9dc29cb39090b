import Mathlib.Data.Finset.Dedup
import Mathlib.Data.Finset.Insert
import QuicKeys.Daemon.LogCounts
import QuicKeys.Scripts.LogLines

/-!
# The script on the log of a run

`parse_log`, `parse_watchdog_keys` and `parse_stuck_keys` on a whole file: the lines of the
handlers, and between them what the daemon says about itself. The patterns are searched for
anywhere in a line, so a field of a datagram that contains a bracket could pass for a line
of its own; without such fields the script finds what was logged, line by line.
-/

namespace QuicKeys.Scripts

open Ascii Daemon Pattern

/-! ## What the script takes from a log -/

/-- `RE_STUCK` -/
def reStuck : List (Piece Char) :=
  word ['[', 's', 't', 'u', 'c', 'k', ']'] ++ .run false isSpace ::
    (word ['k', 'e', 'y', '='] ++ .run true isDecimal :: .run false isSpace ::
      (word ['a', 'g', 'e', '_', 'm', 's', '='] ++ [.run true isNumeric]))

/-- `int(m.group("key"))`, if the line matches. -/
def keyOf (re : List (Piece Char)) (line : List Char) : Option ℕ :=
  (search re line).map fun gs => Nat.ofDigitChars 10 ((gs.headD []).map asciiDigit) 0

/-- The loop that the two functions for keys share. -/
def parseKeys (re : List (Piece Char)) (bytes : List UInt8) : Finset ℕ :=
  ((splitlines (readText bytes)).filterMap (keyOf re)).toFinset

/-- `parse_watchdog_keys` -/
def parseWatchdogKeys (bytes : List UInt8) : Finset ℕ := parseKeys reWd bytes

/-- `parse_stuck_keys` -/
def parseStuckKeys (bytes : List UInt8) : Finset ℕ := parseKeys reStuck bytes

/-! ## What is in the file -/

/-- A line of a handler, or a line that the daemon says about itself. -/
inductive LogEntry
  | line (l : LogLine)
  | notice (text : List Char)

def LogEntry.text : LogEntry → List UInt8
  | .line l => l.text
  | .notice text => ascii (text ++ ['\n'])

/-- What the daemon's two outputs have written. -/
def fileOf (entries : List LogEntry) : List UInt8 := entries.flatMap LogEntry.text

/-- How the daemon starts what it says about itself; its settings are indented. -/
def noticeTags : List (List Char) :=
  [['[', 'h', 'i', 'd', 'r', 'a', ']'], ['[', 'm', 's', 'q', 'u', 'i', 'c', ']'], [' ', ' ']]

/-- A text that cannot be taken for a line or end one. -/
def Tame (cs : List Char) : Prop := ∀ c ∈ cs, isLineBoundary c = false ∧ c ≠ '['

def LogLine.Legible : LogLine → Prop
  | .heal _ q | .stuck _ q | .watchdog _ q | .dropQuicEdge q _ | .latQuicEdge q _ _ => 0 ≤ q
  | .drop q cmd key | .lat q cmd key => 0 ≤ q ∧ Tame (readText cmd) ∧ Tame (readText key)

def LogEntry.Legible : LogEntry → Prop
  | .line l => LogLine.Legible l
  | .notice text => Plain text ∧ '[' ∉ text.tail ∧ ∃ tag ∈ noticeTags, tag <+: text

/-- The age on a `[lat]` line. -/
def LogEntry.latency : LogEntry → Option ℚ
  | .line (.lat q _ _) | .line (.latQuicEdge q _ _) => some q
  | _ => none

/-- The age on a `[heal]` line. -/
def LogEntry.healed : LogEntry → Option ℚ
  | .line (.heal _ q) => some q
  | _ => none

/-- The key of a `[watchdog]` line. -/
def LogEntry.released : LogEntry → Option UInt8
  | .line (.watchdog key _) => some key
  | _ => none

/-- The key of a `[stuck]` line. -/
def LogEntry.stuckKey : LogEntry → Option UInt8
  | .line (.stuck key _) => some key
  | _ => none

/-- The range in which ages are printed without an exponent, and how close the printed value is
there. -/
def ReadsAs (q v : ℚ) : Prop := q = 0 ∨ 1 / 10000 ≤ q ∧ q < 999999.5 → |v - q| ≤ 5 / 10 ^ 6 * q

/-! ## The lines of the file -/

def LogEntry.chars : LogEntry → List Char
  | .line l => LogLine.tag l ++ LogLine.fields l
  | .notice text => text

section Lines

variable {x : LogEntry} {entries : List LogEntry} {l : LogLine} {cs ds : List Char}

lemma Bare.tame (h : Bare cs) : Tame cs :=
  fun c hc => ⟨h.plain.not_isLineBoundary c hc, (h c hc).2⟩

lemma LogLine.Legible.age_nonneg (h : LogLine.Legible l) : 0 ≤ LogLine.age l := by
  cases l with
  | heal | stuck | watchdog | dropQuicEdge | latQuicEdge => exact h
  | drop | lat => exact h.1

/-- Nothing behind the tag can be taken for another line. -/
lemma tame_fields (h : LogLine.Legible l) : Tame (LogLine.fields l) := by
  refine forall_mem_fields (fun cs hcs => hcs.tame) h.age_nonneg ?_
  cases l with
  | heal | stuck | watchdog | dropQuicEdge | latQuicEdge =>
    exact fun bs hbs => absurd hbs List.not_mem_nil
  | drop | lat => exact List.forall_mem_cons.mpr ⟨h.2.1, List.forall_mem_singleton.mpr h.2.2⟩

/-- **Every entry is read as its line**, whatever follows. -/
lemma LogEntry.readText_text (h : x.Legible) (rest : List UInt8) :
    readText (x.text ++ rest) = x.chars ++ '\n' :: readText rest := by
  cases x with
  | notice text => exact h.1.readText_line
  | line l => exact Scripts.readText_text (LogLine.Legible.age_nonneg h)

/-- No line of an entry is broken. -/
lemma not_isLineBoundary_chars (h : x.Legible) : ∀ c ∈ x.chars, isLineBoundary c = false := by
  cases x with
  | notice text => exact h.1.not_isLineBoundary
  | line l =>
    exact List.forall_mem_append.mpr
      ⟨(plain_tag l).not_isLineBoundary, fun c hc => (tame_fields h c hc).1⟩

/-- **The lines of the file are the entries.** -/
lemma splitlines_fileOf (h : ∀ x ∈ entries, x.Legible) :
    splitlines (readText (fileOf entries)) = entries.map LogEntry.chars := by
  induction entries with
  | nil => rfl
  | cons x entries ih =>
    rcases List.forall_mem_cons.mp h with ⟨hx, hrest⟩
    rw [fileOf, List.flatMap_cons, ← fileOf, LogEntry.readText_text hx, splitlines,
      splitlinesFrom_line (not_isLineBoundary_chars hx), List.nil_append, ← splitlines, ih hrest]
    rfl

end Lines

/-! ## Reading the lines -/

/-- The tags that are searched for. -/
def readTags : List (List Char) :=
  [['[', 'l', 'a', 't', ']'], ['[', 'h', 'e', 'a', 'l', ']'],
    ['[', 'w', 'a', 't', 'c', 'h', 'd', 'o', 'g', ']'], ['[', 's', 't', 'u', 'c', 'k', ']']]

/-- The tags of the lines. -/
def lineTags : List (List Char) :=
  [['[', 'h', 'e', 'a', 'l', ']'], ['[', 's', 't', 'u', 'c', 'k', ']'],
    ['[', 'w', 'a', 't', 'c', 'h', 'd', 'o', 'g', ']'], ['[', 'd', 'r', 'o', 'p', ']'],
    ['[', 'l', 'a', 't', ']']]

lemma tag_mem (l : LogLine) : LogLine.tag l ∈ lineTags := by
  cases l <;> simp [LogLine.tag, lineTags]

/-- No tag that is searched for is the beginning of another tag, or the other way round. -/
lemma not_prefix_of_ne {t tag : List Char} (ht : t ∈ readTags) (htag : tag ∈ lineTags ++ noticeTags)
    (hne : t ≠ tag) : ¬t <+: tag ∧ ¬tag <+: t ∧ tag ≠ [] := by
  have hall : readTags.all (fun t => (lineTags ++ noticeTags).all fun tag =>
      t == tag || !t.isPrefixOf tag && !tag.isPrefixOf t && tag != []) = true := by decide
  have hpair := List.all_eq_true.mp (List.all_eq_true.mp hall t ht) tag htag
  simp only [Bool.or_eq_true, beq_iff_eq, hne, false_or, Bool.and_eq_true, Bool.not_eq_true',
    bne_iff_ne, ← Bool.not_eq_true, List.isPrefixOf_iff_prefix] at hpair
  exact ⟨hpair.1.1, hpair.1.2, hpair.2⟩

section Reading

variable {x : LogEntry} {l : LogLine} {w field : List Char} {ps : List (Piece Char)} {q v : ℚ}

/-- A value that is right where no exponent is printed. -/
lemma readsAs_of_iff (h : |v - q| ≤ 5 / 10 ^ 6 * q ↔ InFixedRange q) : ReadsAs q v := by
  intro hmem
  refine h.mpr (hmem.imp_right fun hrange => ⟨?_, hrange.2⟩)
  have hlow := hrange.1
  norm_num at hlow ⊢
  linarith

lemma ofDigitChars_unsigned (n : ℕ) : Nat.ofDigitChars 10 ((unsigned n).map asciiDigit) 0 = n := by
  rw [unsigned, map_asciiDigit fun _ => isDigit_of_mem_toDigits]
  exact Nat.ofDigitChars_toDigits (by decide) (by decide)

lemma not_bracket_fields (h : LogLine.Legible l) : '[' ∉ LogLine.fields l :=
  fun hmem => (tame_fields h _ hmem).2 rfl

lemma not_bracket_tag (l : LogLine) : '[' ∉ (LogLine.tag l).tail := by
  cases l <;> (rw [LogLine.tag]; decide)

/-- **A line with another tag**, or none that is searched for, is not matched. -/
lemma search_of_ne (h : x.Legible) (hread : '[' :: w ∈ readTags)
    (hne : ∀ l, x = .line l → '[' :: w ≠ LogLine.tag l) :
    search (word ('[' :: w) ++ ps) x.chars = none := by
  cases x with
  | line l =>
    rcases not_prefix_of_ne hread (List.mem_append_left _ (tag_mem l)) (hne l rfl) with
      ⟨h1, h2, hcons⟩
    refine search_word_of_not_prefix hcons (fun hmem => ?_) h1 h2
    rcases List.mem_append.mp hmem with hmem | hmem
    · exact not_bracket_tag l hmem
    · exact not_bracket_fields h hmem
  | notice text =>
    rcases h with ⟨-, hbracket, tag, htag, more, rfl⟩
    have hother : '[' :: w ≠ tag := by
      rintro rfl
      have hdisjoint : (readTags.all fun t => !noticeTags.contains t) = true := by decide
      have := List.all_eq_true.mp hdisjoint _ hread
      simp [htag] at this
    rcases not_prefix_of_ne hread (List.mem_append_right _ htag) hother with ⟨h1, h2, hcons⟩
    refine search_word_of_not_prefix hcons ?_ h1 h2
    rwa [List.tail_append_of_ne_nil hcons] at hbracket

/-- The age on a `[lat]` line. -/
lemma read_lat {rest : List Char} (hq : 0 ≤ q) (hrest : ∀ c ∈ rest.head?, isNumeric c = false)
    (hline : (LogEntry.line l).chars = ['[', 'l', 'a', 't', ']'] ++ ([' '] ++
      (['d', 't', '_', 'm', 's', '='] ++ (double q ++ rest)))) :
    ∃ v, groupValue reLat 0 (LogEntry.line l).chars = some v ∧ ReadsAs q v := by
  rcases groupValue_lat hq hrest with ⟨v, hv, herror⟩
  rw [← hline] at hv
  exact ⟨v, hv, readsAs_of_iff herror⟩

/-- The key and the age on a line about a key. -/
lemma read_keyed (hq : 0 ≤ q) (key : UInt8) (hne : field ≠ [])
    (hfield : ∀ c ∈ field.head?, isSpace c = false)
    (hfields : LogLine.fields l = keyedFields field key q) :
    keyOf (word (LogLine.tag l) ++ keyedPattern field) (LogEntry.line l).chars = some key.toNat
      ∧ ∃ v, groupValue (word (LogLine.tag l) ++ keyedPattern field) 1 (LogEntry.line l).chars
          = some v ∧ ReadsAs q v := by
  rcases search_keyed hne hfield key hq (LogLine.tag l) with ⟨m, d, hsearch, herror⟩
  rw [← hfields] at hsearch
  refine ⟨?_, _, groupValue_of_search hsearch rfl, readsAs_of_iff herror⟩
  rw [keyOf, LogEntry.chars, hsearch]
  exact congrArg some (ofDigitChars_unsigned key.toNat)

/-- Other lines have neither. -/
lemma read_of_ne (h : x.Legible) (hread : '[' :: w ∈ readTags)
    (hne : ∀ l, x = .line l → '[' :: w ≠ LogLine.tag l) :
    keyOf (word ('[' :: w) ++ ps) x.chars = none
      ∧ ∀ i, groupValue (word ('[' :: w) ++ ps) i x.chars = none := by
  have hsearch : search (word ('[' :: w) ++ ps) x.chars = none := search_of_ne h hread hne
  refine ⟨?_, fun i => ?_⟩
  · rw [keyOf, hsearch]
    rfl
  · rw [groupValue, hsearch]
    rfl

lemma latency_rel (h : x.Legible) : Option.Rel ReadsAs x.latency (groupValue reLat 0 x.chars) := by
  have hnone (hne : ∀ l, x = .line l → ['[', 'l', 'a', 't', ']'] ≠ LogLine.tag l) :
      groupValue reLat 0 x.chars = none :=
    (read_of_ne h (by decide) hne).2 0
  cases x with
  | notice text =>
    rw [hnone (by simp)]
    exact .none
  | line l =>
    cases l with
    | lat q cmd key =>
      rcases @read_lat (.lat q cmd key) q _ h.1 (by rintro _ ⟨⟩; decide) rfl with ⟨v, hv, hreads⟩
      rw [hv]
      exact .some hreads
    | latQuicEdge q seq usage =>
      rcases @read_lat (.latQuicEdge q seq usage) q _ h (by rintro _ ⟨⟩; decide) rfl with
        ⟨v, hv, hreads⟩
      rw [hv]
      exact .some hreads
    | heal | stuck | watchdog | drop | dropQuicEdge =>
      rw [hnone (by rintro _ ⟨⟩; rw [LogLine.tag]; decide)]
      exact .none

lemma healed_rel (h : x.Legible) : Option.Rel ReadsAs x.healed (groupValue reHeal 1 x.chars) := by
  have hnone (hne : ∀ l, x = .line l → ['[', 'h', 'e', 'a', 'l', ']'] ≠ LogLine.tag l) :
      groupValue reHeal 1 x.chars = none :=
    (read_of_ne h (by decide) hne).2 1
  cases x with
  | notice text =>
    rw [hnone (by simp)]
    exact .none
  | line l =>
    cases l with
    | heal key q =>
      have hread := @read_keyed (.heal key q) ['h', 'e', 'a', 'l', '_', 'm', 's', '='] q h key
        (by simp) (by rintro _ ⟨⟩; decide) rfl
      rcases hread.2 with ⟨v, hv, hreads⟩
      have hheal : groupValue reHeal 1 (LogEntry.line (.heal key q)).chars = some v := hv
      rw [hheal]
      exact .some hreads
    | lat | latQuicEdge | stuck | watchdog | drop | dropQuicEdge =>
      rw [hnone (by rintro _ ⟨⟩; rw [LogLine.tag]; decide)]
      exact .none

/-- The key of an entry with this tag, and an age behind the key. -/
def LogEntry.agedKey (tag : List Char) : LogEntry → Option UInt8
  | .line (.stuck key q) => if LogLine.tag (.stuck key q) = tag then some key else none
  | .line (.watchdog key q) => if LogLine.tag (.watchdog key q) = tag then some key else none
  | _ => none

/-- The pattern with one of the two tags finds the keys on the lines with this tag. -/
lemma keyOf_agedKey (h : x.Legible) (hread : '[' :: w ∈ readTags.drop 2) :
    keyOf (word ('[' :: w) ++ keyedPattern ['a', 'g', 'e', '_', 'm', 's', '=']) x.chars
      = (x.agedKey ('[' :: w)).map UInt8.toNat := by
  have hne (hother : ∀ l, x = .line l → '[' :: w ≠ LogLine.tag l) :=
    (@read_of_ne x w (keyedPattern ['a', 'g', 'e', '_', 'm', 's', '=']) h
      (List.mem_of_mem_drop hread) hother).1
  cases x with
  | notice text => exact hne (by simp)
  | line l =>
    by_cases htag : '[' :: w = LogLine.tag l
    · cases l with
      | stuck key q | watchdog key q =>
        rw [LogEntry.agedKey, if_pos htag.symm, htag]
        exact (read_keyed h key (by simp) (by rintro _ ⟨⟩; decide) rfl).1
      | heal | lat | latQuicEdge | drop | dropQuicEdge =>
        rw [htag, LogLine.tag] at hread
        exact absurd hread (by decide)
    · rw [hne (by rintro _ ⟨⟩; exact htag)]
      cases l with
      | stuck | watchdog => rw [LogEntry.agedKey, if_neg (Ne.symm htag), Option.map_none]
      | heal | lat | latQuicEdge | drop | dropQuicEdge => rfl

lemma keyOf_reWd (h : x.Legible) : keyOf reWd x.chars = x.released.map UInt8.toNat := by
  have hreleased : x.released = x.agedKey ['[', 'w', 'a', 't', 'c', 'h', 'd', 'o', 'g', ']'] := by
    rcases x with (_ | _ | _ | _ | _ | _ | _) | _ <;> rfl
  rw [hreleased]
  exact keyOf_agedKey h (by decide)

lemma keyOf_reStuck (h : x.Legible) : keyOf reStuck x.chars = x.stuckKey.map UInt8.toNat := by
  have hstuck : x.stuckKey = x.agedKey ['[', 's', 't', 'u', 'c', 'k', ']'] := by
    rcases x with (_ | _ | _ | _ | _ | _ | _) | _ <;> rfl
  rw [hstuck]
  exact keyOf_agedKey h (by decide)

end Reading

/-! ## The whole file -/

section File

variable {entries : List LogEntry}

/-- What the loop of `parse_log` has collected. -/
lemma foldl_parseLine (lines : List (List Char)) (r : Parsed) :
    lines.foldl parseLine r
      = { lats := r.lats ++ lines.filterMap (groupValue reLat 0)
          heals := r.heals ++ lines.filterMap (groupValue reHeal 1)
          watchdog := r.watchdog + (lines.filterMap (keyOf reWd)).length } := by
  induction lines generalizing r with
  | nil => simp
  | cons line lines ih =>
    rw [List.foldl_cons, ih, parseLine]
    simp only [List.filterMap_cons, keyOf]
    congr 1
    · cases groupValue reLat 0 line <;> simp
    · cases groupValue reHeal 1 line <;> simp
    · cases search reWd line with
      | none => simp
      | some gs => simp [Nat.add_assoc, Nat.add_comm 1]

/-- Fields that are read one by one are read in order. -/
lemma forall₂_filterMap {P : ℚ → ℚ → Prop} {f : LogEntry → Option ℚ} {g : List Char → Option ℚ}
    (hread : ∀ x ∈ entries, Option.Rel P (f x) (g x.chars)) :
    List.Forall₂ P (entries.filterMap f) ((entries.map LogEntry.chars).filterMap g) := by
  induction entries with
  | nil => exact .nil
  | cons x entries ih =>
    rcases List.forall_mem_cons.mp hread with ⟨hx, hrest⟩
    rw [List.map_cons, List.filterMap_cons, List.filterMap_cons]
    cases hf : f x <;> cases hg : g x.chars <;> rw [hf, hg] at hx <;> cases hx
    · exact ih hrest
    next hp => exact .cons hp (ih hrest)

lemma filterMap_keyOf {re : List (Piece Char)} {f : LogEntry → Option UInt8}
    (hread : ∀ x ∈ entries, keyOf re x.chars = (f x).map UInt8.toNat) :
    (entries.map LogEntry.chars).filterMap (keyOf re) = (entries.filterMap f).map UInt8.toNat := by
  rw [List.filterMap_map, List.map_filterMap]
  exact List.filterMap_congr hread

section Legible

variable (h : ∀ x ∈ entries, x.Legible)

include h

lemma parseLog_eq :
    parseLog (fileOf entries)
      = { lats := (entries.map LogEntry.chars).filterMap (groupValue reLat 0)
          heals := (entries.map LogEntry.chars).filterMap (groupValue reHeal 1)
          watchdog := ((entries.map LogEntry.chars).filterMap (keyOf reWd)).length } := by
  rw [parseLog, splitlines_fileOf h, foldl_parseLine]
  simp

lemma lats_fileOf :
    List.Forall₂ ReadsAs (entries.filterMap LogEntry.latency) (parseLog (fileOf entries)).lats := by
  rw [parseLog_eq h]
  exact forall₂_filterMap fun x hx => latency_rel (h x hx)

lemma heals_fileOf :
    List.Forall₂ ReadsAs (entries.filterMap LogEntry.healed) (parseLog (fileOf entries)).heals := by
  rw [parseLog_eq h]
  exact forall₂_filterMap fun x hx => healed_rel (h x hx)

lemma watchdog_fileOf :
    (parseLog (fileOf entries)).watchdog = (entries.filterMap LogEntry.released).length := by
  rw [parseLog_eq h]
  dsimp only
  rw [filterMap_keyOf fun x hx => keyOf_reWd (h x hx), List.length_map]

lemma parseWatchdogKeys_fileOf :
    parseWatchdogKeys (fileOf entries)
      = ((entries.filterMap LogEntry.released).map UInt8.toNat).toFinset := by
  rw [parseWatchdogKeys, parseKeys, splitlines_fileOf h,
    filterMap_keyOf fun x hx => keyOf_reWd (h x hx)]

lemma parseStuckKeys_fileOf :
    parseStuckKeys (fileOf entries)
      = ((entries.filterMap LogEntry.stuckKey).map UInt8.toNat).toFinset := by
  rw [parseStuckKeys, parseKeys, splitlines_fileOf h,
    filterMap_keyOf fun x hx => keyOf_reStuck (h x hx)]

end Legible

/-- **The script finds what was logged**, and nothing else. Line by line, and in order, each
latency and each healing time is read off, to six digits unless its exponent is printed; the
releases of the watchdog are counted, and the keys it released and the stuck ones collected. -/
theorem parseLog_fileOf (h : ∀ x ∈ entries, x.Legible) :
    let r := parseLog (fileOf entries)
    let released := entries.filterMap LogEntry.released
    let stuck := entries.filterMap LogEntry.stuckKey
    List.Forall₂ ReadsAs (entries.filterMap LogEntry.latency) r.lats
      ∧ List.Forall₂ ReadsAs (entries.filterMap LogEntry.healed) r.heals
      ∧ r.watchdog = released.length
      ∧ parseWatchdogKeys (fileOf entries) = (released.map UInt8.toNat).toFinset
      ∧ parseStuckKeys (fileOf entries) = (stuck.map UInt8.toNat).toFinset :=
  ⟨lats_fileOf h, heals_fileOf h, watchdog_fileOf h, parseWatchdogKeys_fileOf h,
    parseStuckKeys_fileOf h⟩

/-- A log with a message of the daemon, an edge, a healing and a release. -/
def fourEntries : List LogEntry :=
  [.notice ['[', 'h', 'i', 'd', 'r', 'a', ']', ' ', 'u', 'p'],
    .line (.lat (241 / 4) (ascii ['u', 'p']) (ascii ['t'])), .line (.heal 0x17 (17 / 2)),
    .line (.watchdog 0x04 201)]

/-- A short token is read as it stands. -/
lemma tame_ascii {cs : List Char} (h : Bare cs) : Tame (readText (ascii cs)) := by
  rw [h.plain.readText]
  exact h.tame

/-- The script reads one latency of 60.25 ms, and a release of key 4. -/
theorem parseLog_fileOf_fourEntries :
    (∃ v, (parseLog (fileOf fourEntries)).lats = [v] ∧ |v - 241 / 4| ≤ 5 / 10 ^ 6 * (241 / 4))
      ∧ (parseLog (fileOf fourEntries)).watchdog = 1
      ∧ parseWatchdogKeys (fileOf fourEntries) = {4} := by
  have hlegible : ∀ x ∈ fourEntries, x.Legible := by
    refine List.forall_mem_cons.mpr ⟨⟨plain_of_all (by decide), by decide, _, List.mem_cons_self,
      by decide⟩, List.forall_mem_cons.mpr ⟨⟨by norm_num, tame_ascii (bare_of_all (by decide)),
        tame_ascii (bare_of_all (by decide))⟩, List.forall_mem_cons.mpr ⟨?_,
          List.forall_mem_singleton.mpr ?_⟩⟩⟩
    · show (0 : ℚ) ≤ 17 / 2
      norm_num
    · show (0 : ℚ) ≤ 201
      norm_num
  rcases parseLog_fileOf hlegible with ⟨hlats, -, hwatchdog, hkeys, -⟩
  refine ⟨?_, hwatchdog, hkeys.trans (by decide)⟩
  rcases List.forall₂_cons_left_iff.mp hlats with ⟨v, vs, hv, hvs, hlats⟩
  rw [hlats, List.forall₂_nil_left_iff.mp hvs]
  exact ⟨v, rfl, hv (Or.inr (by norm_num))⟩

end File

end QuicKeys.Scripts
