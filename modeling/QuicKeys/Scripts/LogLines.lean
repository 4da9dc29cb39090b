import QuicKeys.Daemon.LogText
import QuicKeys.Scripts.ParseLog

/-!
# The lines that the script reads

A line is a tag with fields behind it. An age is printed in the default format of a C++
stream, and the script reads the digits and points behind the name of the field. The two
agree while the number is in fixed notation. In scientific notation the script takes the
mantissa for the value.
-/

namespace QuicKeys.Scripts

open Ascii Daemon Pattern

/-! ## Text -/

/-- No line ends within the text. -/
def OneLine (bs : List UInt8) : Prop := ∀ c ∈ readText bs, isLineBoundary c = false

/-- Printable ASCII. -/
def Plain (cs : List Char) : Prop := ∀ c ∈ cs, 0x20 ≤ c.toNat ∧ c.toNat < 0x7F

/-- Printable ASCII without a bracket. -/
def Bare (cs : List Char) : Prop := ∀ c ∈ cs, (0x20 ≤ c.toNat ∧ c.toNat < 0x7F) ∧ c ≠ '['

section Text

variable {cs ds : List Char} {bs rest : List UInt8}

lemma plain_of_all (h : cs.all (fun c => 0x20 ≤ c.toNat && c.toNat < 0x7F) = true) : Plain cs := by
  intro c hc
  have := List.all_eq_true.mp h c hc
  simpa using this

lemma plain_append : Plain (cs ++ ds) ↔ Plain cs ∧ Plain ds := List.forall_mem_append

lemma Plain.not_isLineBoundary (h : Plain cs) : ∀ c ∈ cs, isLineBoundary c = false := by
  intro c hc
  have := h c hc
  simp only [isLineBoundary, List.contains_eq_mem, List.mem_cons, List.not_mem_nil, or_false,
    decide_eq_false_iff_not]
  omega

lemma Plain.readText_append (h : Plain cs) (bs : List UInt8) :
    readText (ascii cs ++ bs) = cs ++ readText bs :=
  readText_ascii_append (fun c hc => (h c hc).2.trans (by norm_num)) bs

lemma Plain.readText (h : Plain cs) : readText (ascii cs) = cs := by
  have hread := h.readText_append []
  rwa [List.append_nil, Scripts.readText, List.append_nil] at hread

lemma Plain.oneLine (h : Plain cs) : OneLine (ascii cs) := by
  rw [OneLine, h.readText]
  exact h.not_isLineBoundary

/-- Printable text stays apart from the bytes before it. -/
lemma Plain.readText_mid (h : Plain cs) (hne : cs ≠ []) (bs rest : List UInt8) :
    Scripts.readText (bs ++ (ascii cs ++ rest))
      = Scripts.readText bs ++ (cs ++ Scripts.readText rest) := by
  rw [← h.readText_append]
  refine Scripts.readText_append ?_
  rcases List.exists_cons_of_ne_nil hne with ⟨c, cs, rfl⟩
  rintro _ ⟨⟩
  exact not_isContinuation_of_ascii ((h c List.mem_cons_self).2.trans (by norm_num))

lemma bare_of_all (h : cs.all (fun c => 0x20 ≤ c.toNat && c.toNat < 0x7F && c != '[') = true) :
    Bare cs := by
  intro c hc
  have := List.all_eq_true.mp h c hc
  simpa using this

lemma bare_append : Bare (cs ++ ds) ↔ Bare cs ∧ Bare ds := List.forall_mem_append

lemma Bare.plain (h : Bare cs) : Plain cs := fun c hc => (h c hc).1

lemma bare_of_isDigit (h : ∀ c ∈ cs, c.isDigit = true) : Bare cs := by
  intro c hc
  have hrange := toNat_lt_of_isDigit (h c hc)
  refine ⟨by omega, ?_⟩
  rintro rfl
  exact absurd (h _ hc) (by decide)

lemma bare_unsigned (n : ℕ) : Bare (unsigned n) := bare_of_isDigit fun _ => isDigit_of_mem_toDigits

lemma not_isContinuation_newline :
    ∀ x ∈ (ascii ['\n'] ++ rest).head?, isContinuation x = false := by
  rintro _ ⟨⟩
  decide

lemma readText_newline : readText (ascii ['\n'] ++ rest) = '\n' :: readText rest :=
  readText_ascii_append (by simp) rest

/-- A line of printable text. -/
lemma Plain.readText_line (h : Plain cs) :
    Scripts.readText (ascii (cs ++ ['\n']) ++ rest) = cs ++ '\n' :: Scripts.readText rest := by
  rw [ascii, List.map_append, ← ascii, ← ascii, List.append_assoc, h.readText_append,
    readText_newline]

end Text

/-! ## Printed ages -/

/-- The numbers that are printed without an exponent. -/
def InFixedRange (q : ℚ) : Prop := q = 0 ∨ 0.00009999995 ≤ q ∧ q < 999999.5

section Printed

variable {q : ℚ}

lemma bare_fixed (m d : ℕ) : Bare (Numerals.fixed m d) := by
  intro c hc
  have hnum := isNumeric_of_mem_fixed hc
  rw [isNumeric, Bool.or_eq_true, beq_iff_eq] at hnum
  rcases hnum with hdigit | rfl
  · exact bare_of_isDigit (List.forall_mem_singleton.mpr hdigit) c List.mem_cons_self
  · exact ⟨by decide, by decide⟩

lemma bare_exponent (x : ℤ) : Bare (Numerals.exponent x) := by
  have hsign : Bare ['e', if x < 0 then '-' else '+'] := by
    split_ifs <;> exact bare_of_all (by decide)
  have hdigits : Bare
      (if x.natAbs < 100 then Numerals.lowDigits 2 x.natAbs else Nat.toDigits 10 x.natAbs) := by
    split_ifs
    · exact bare_of_isDigit fun _ => Numerals.isDigit_of_mem_lowDigits
    · exact bare_of_isDigit fun _ => isDigit_of_mem_toDigits
  exact bare_append.mpr ⟨hsign, hdigits⟩

/-- In the range, the rounded number is printed as it is. -/
lemma double_of_mem (hlow : 0.00009999995 ≤ q) (hhigh : q < 999999.5) :
    ∃ m d, double q = Numerals.fixed m d ∧ |(m : ℚ) / 10 ^ d - q| ≤ 5 / 10 ^ 6 * q := by
  have hpos : 0 < q := by linarith
  rcases Numerals.general_of_mem (p := 6) (by norm_num) hpos (by norm_num at hlow ⊢; exact hlow)
    (by norm_num at hhigh ⊢; exact hhigh) with ⟨m, d, htext, herror⟩
  refine ⟨m, d, htext, ?_⟩
  calc |(m : ℚ) / 10 ^ d - q| ≤ q * 10 ^ (1 - (6 : ℕ) : ℤ) / 2 := herror
    _ = 5 / 10 ^ 6 * q := by norm_num; ring

/-- Outside, an exponent follows a number from 1 to 10, which is nowhere near. -/
lemma double_of_not_mem (hpos : 0 < q) (hout : q < 0.00009999995 ∨ 999999.5 ≤ q) :
    ∃ m x, double q = Numerals.fixed m 5 ++ Numerals.exponent x
      ∧ 5 / 10 ^ 6 * q < |(m : ℚ) / 10 ^ 5 - q| := by
  have hthreshold : q < (10 : ℚ) ^ (-4 : ℤ) - 10 ^ (-4 - (6 : ℕ) : ℤ) / 2
      ∨ 10 ^ 6 - 1 / 2 ≤ q := by
    norm_num at hout ⊢
    exact hout
  rcases Numerals.general_of_not_mem (p := 6) (by norm_num) hpos hthreshold
    with ⟨m, x, htext, hm1, hm2⟩
  refine ⟨m, x, htext, ?_⟩
  have hm1' : (100000 : ℚ) ≤ m := by exact_mod_cast hm1
  have hm2' : (m : ℚ) < 1000000 := by exact_mod_cast hm2
  rcases hout with hsmall | hlarge
  · refine lt_of_lt_of_le ?_ (le_abs_self _)
    linarith
  · refine lt_of_lt_of_le ?_ (neg_le_abs _)
    linarith

/-- **What is printed**: a number in fixed notation, which is within the error bound if and
only if no exponent follows. -/
lemma double_of_nonneg (hq : 0 ≤ q) :
    ∃ m d e, double q = Numerals.fixed m d ++ e ∧ Bare e ∧ (∀ c ∈ e.head?, isNumeric c = false)
      ∧ (|(m : ℚ) / 10 ^ d - q| ≤ 5 / 10 ^ 6 * q ↔ InFixedRange q) := by
  rcases hq.eq_or_lt with rfl | hpos
  · refine ⟨0, 0, [], ?_, by simp [Bare], by simp, iff_of_true (by simp) (Or.inl rfl)⟩
    rw [double, Numerals.general_zero]
    decide
  by_cases hin : 0.00009999995 ≤ q ∧ q < 999999.5
  · rcases double_of_mem hin.1 hin.2 with ⟨m, d, htext, herror⟩
    exact ⟨m, d, [], by rw [htext, List.append_nil], by simp [Bare], by simp,
      iff_of_true herror (Or.inr hin)⟩
  · have hout : q < 0.00009999995 ∨ 999999.5 ≤ q := by
      rwa [not_and_or, not_le, not_lt] at hin
    rcases double_of_not_mem hpos hout with ⟨m, x, htext, herror⟩
    refine ⟨m, 5, Numerals.exponent x, htext, bare_exponent x, by rintro _ ⟨⟩; decide,
      iff_of_false (not_le_of_gt herror) ?_⟩
    rintro (rfl | h)
    · exact lt_irrefl 0 hpos
    · exact hin h

lemma bare_double (hq : 0 ≤ q) : Bare (double q) := by
  rcases double_of_nonneg hq with ⟨m, d, e, htext, hbare, -, -⟩
  rw [htext]
  exact bare_append.mpr ⟨bare_fixed m d, hbare⟩

end Printed

/-! ## The parts of a line -/

/-- The tag of a line. -/
def LogLine.tag : LogLine → List Char
  | .heal .. => ['[', 'h', 'e', 'a', 'l', ']']
  | .stuck .. => ['[', 's', 't', 'u', 'c', 'k', ']']
  | .watchdog .. => ['[', 'w', 'a', 't', 'c', 'h', 'd', 'o', 'g', ']']
  | .drop .. | .dropQuicEdge .. => ['[', 'd', 'r', 'o', 'p', ']']
  | .lat .. | .latQuicEdge .. => ['[', 'l', 'a', 't', ']']

/-- A key, and an age under the name `field`. -/
def keyedFields (field : List Char) (key : UInt8) (q : ℚ) : List Char :=
  [' '] ++ (['k', 'e', 'y', '='] ++ (unsigned key.toNat ++ ([' '] ++ (field ++ double q))))

/-- What follows the tag. -/
def LogLine.fields : LogLine → List Char
  | .heal key q => keyedFields ['h', 'e', 'a', 'l', '_', 'm', 's', '='] key q
  | .stuck key q | .watchdog key q => keyedFields ['a', 'g', 'e', '_', 'm', 's', '='] key q
  | .drop q cmd key =>
    [' ', 'k', 'i', 'n', 'd', '=', 'd', 'e', 'a', 'd', 'l', 'i', 'n', 'e'] ++ ([' '] ++
      (['d', 't', '_', 'm', 's', '='] ++ (double q ++ ([' ', 'c', 'm', 'd', '='] ++
        (readText cmd ++ ([' ', 'k', 'e', 'y', '='] ++ readText key))))))
  | .dropQuicEdge q key =>
    [' ', 'k', 'i', 'n', 'd', '=', 'd', 'e', 'a', 'd', 'l', 'i', 'n', 'e'] ++ ([' '] ++
      (['d', 't', '_', 'm', 's', '='] ++ (double q ++ ([' ', 'c', 'm', 'd', '=', 'q', 'u', 'i', 'c',
        '_', 'e', 'd', 'g', 'e', ' ', 'k', 'e', 'y', '='] ++ unsigned key.toNat))))
  | .lat q cmd key =>
    [' '] ++ (['d', 't', '_', 'm', 's', '='] ++ (double q ++ ([' ', 'c', 'm', 'd', '='] ++
      (readText cmd ++ ([' ', 'k', 'e', 'y', '='] ++ readText key)))))
  | .latQuicEdge q seq usage =>
    [' '] ++ (['d', 't', '_', 'm', 's', '='] ++ (double q ++ ([' ', 'c', 'm', 'd', '=', 'q', 'u',
      'i', 'c', '_', 'e', 'd', 'g', 'e', ' ', 's', 'e', 'q', '='] ++ (unsigned seq.toNat ++
        ([' ', 'u', 's', 'a', 'g', 'e', '='] ++ unsigned usage.toNat)))))

/-- The number on a line. -/
def LogLine.age : LogLine → ℚ
  | .heal _ q | .stuck _ q | .watchdog _ q | .drop q _ _ | .dropQuicEdge q _ | .lat q _ _
  | .latQuicEdge q _ _ => q

/-- The fields that are copied from a datagram. -/
def LogLine.copied : LogLine → List (List UInt8)
  | .drop _ cmd key | .lat _ cmd key => [cmd, key]
  | _ => []

section Parts

variable {l : LogLine} {cs ds : List Char} {cmd key rest : List UInt8}

lemma plain_tag (l : LogLine) : Plain (LogLine.tag l) := by
  cases l <;> (rw [LogLine.tag]; exact plain_of_all (by decide))

lemma bare_keyedFields {field : List Char} (hfield : Bare field) (key : UInt8) {q : ℚ}
    (hq : 0 ≤ q) : Bare (keyedFields field key q) := by
  simp only [keyedFields, bare_append]
  exact ⟨bare_of_all (by decide), bare_of_all (by decide), bare_unsigned _,
    bare_of_all (by decide), hfield, bare_double hq⟩

/-- What holds of all bare text, and of the fields of a datagram, holds of all behind the tag. -/
lemma forall_mem_fields {P : Char → Prop} (hbare : ∀ cs, Bare cs → ∀ c ∈ cs, P c)
    (hage : 0 ≤ LogLine.age l) (hcopied : ∀ bs ∈ LogLine.copied l, ∀ c ∈ readText bs, P c) :
    ∀ c ∈ LogLine.fields l, P c := by
  have hall {cs : List Char}
      (h : cs.all (fun c => 0x20 ≤ c.toNat && c.toNat < 0x7F && c != '[') = true) :
      ∀ c ∈ cs, P c := hbare cs (bare_of_all h)
  have hdouble : ∀ c ∈ double (LogLine.age l), P c := hbare _ (bare_double hage)
  have hunsigned (n : ℕ) : ∀ c ∈ unsigned n, P c := hbare _ (bare_unsigned n)
  cases l with
  | heal key q => exact hbare _ (bare_keyedFields (bare_of_all (by decide)) key hage)
  | stuck key q => exact hbare _ (bare_keyedFields (bare_of_all (by decide)) key hage)
  | watchdog key q => exact hbare _ (bare_keyedFields (bare_of_all (by decide)) key hage)
  | drop q cmd key =>
    rcases List.forall_mem_cons.mp hcopied with ⟨hcmd, hkey⟩
    simp only [LogLine.fields, List.forall_mem_append]
    exact ⟨hall (by decide), hall (by decide), hall (by decide), hdouble, hall (by decide), hcmd,
      hall (by decide), List.forall_mem_singleton.mp hkey⟩
  | dropQuicEdge q key =>
    simp only [LogLine.fields, List.forall_mem_append]
    exact ⟨hall (by decide), hall (by decide), hall (by decide), hdouble, hall (by decide),
      hunsigned _⟩
  | lat q cmd key =>
    rcases List.forall_mem_cons.mp hcopied with ⟨hcmd, hkey⟩
    simp only [LogLine.fields, List.forall_mem_append]
    exact ⟨hall (by decide), hall (by decide), hdouble, hall (by decide), hcmd, hall (by decide),
      List.forall_mem_singleton.mp hkey⟩
  | latQuicEdge q seq usage =>
    simp only [LogLine.fields, List.forall_mem_append]
    exact ⟨hall (by decide), hall (by decide), hdouble, hall (by decide), hunsigned _,
      hall (by decide), hunsigned _⟩

/-- A line without fields of a datagram. -/
lemma readText_plain (htext : l.text = ascii (LogLine.tag l ++ LogLine.fields l ++ ['\n']))
    (hage : 0 ≤ LogLine.age l) (hcopied : LogLine.copied l = []) :
    readText (l.text ++ rest) = LogLine.tag l ++ LogLine.fields l ++ '\n' :: readText rest := by
  have hfields : Plain (LogLine.fields l) := by
    refine forall_mem_fields (fun cs hcs => hcs.plain) hage fun bs hbs => ?_
    rw [hcopied] at hbs
    exact absurd hbs List.not_mem_nil
  rw [htext]
  exact (plain_append.mpr ⟨plain_tag l, hfields⟩).readText_line

/-- A line with two such fields. -/
lemma readText_copied (hcs : Plain cs) (hds : Plain ds) (hne : ds ≠ []) :
    readText (ascii cs ++ cmd ++ ascii ds ++ key ++ ascii ['\n'] ++ rest)
      = cs ++ (readText cmd ++ (ds ++ readText key)) ++ '\n' :: readText rest := by
  rw [List.append_assoc, List.append_assoc, List.append_assoc, List.append_assoc,
    hcs.readText_append, hds.readText_mid hne,
    Scripts.readText_append not_isContinuation_newline, readText_newline]
  simp only [List.append_assoc]

/-- **Every line is read as its tag and its fields**, whatever follows. -/
lemma readText_text (hage : 0 ≤ LogLine.age l) :
    readText (l.text ++ rest) = LogLine.tag l ++ LogLine.fields l ++ '\n' :: readText rest := by
  cases l with
  | heal key q =>
    refine readText_plain ?_ hage rfl
    simp [LogLine.text, LogLine.tag, LogLine.fields, keyedFields]
  | stuck key q =>
    refine readText_plain ?_ hage rfl
    simp [LogLine.text, LogLine.tag, LogLine.fields, keyedFields]
  | watchdog key q =>
    refine readText_plain ?_ hage rfl
    simp [LogLine.text, LogLine.tag, LogLine.fields, keyedFields]
  | dropQuicEdge q key =>
    refine readText_plain ?_ hage rfl
    simp [LogLine.text, LogLine.tag, LogLine.fields]
  | latQuicEdge q seq usage =>
    refine readText_plain ?_ hage rfl
    simp [LogLine.text, LogLine.tag, LogLine.fields]
  | drop q cmd key =>
    have hstart : Plain (['[', 'd', 'r', 'o', 'p', ']', ' ', 'k', 'i', 'n', 'd', '=', 'd', 'e',
        'a', 'd', 'l', 'i', 'n', 'e', ' ', 'd', 't', '_', 'm', 's', '='] ++ double q
        ++ [' ', 'c', 'm', 'd', '=']) := by
      simp only [plain_append]
      exact ⟨⟨plain_of_all (by decide), (bare_double hage).plain⟩, plain_of_all (by decide)⟩
    have hread := @readText_copied _ [' ', 'k', 'e', 'y', '='] cmd key rest hstart
      (plain_of_all (by decide)) (by simp)
    rw [LogLine.text, hread]
    simp [LogLine.tag, LogLine.fields]
  | lat q cmd key =>
    have hstart : Plain (['[', 'l', 'a', 't', ']', ' ', 'd', 't', '_', 'm', 's', '='] ++ double q
        ++ [' ', 'c', 'm', 'd', '=']) := by
      simp only [plain_append]
      exact ⟨⟨plain_of_all (by decide), (bare_double hage).plain⟩, plain_of_all (by decide)⟩
    have hread := @readText_copied _ [' ', 'k', 'e', 'y', '='] cmd key rest hstart
      (plain_of_all (by decide)) (by simp)
    rw [LogLine.text, hread]
    simp [LogLine.tag, LogLine.fields]

/-- `parse_log` on a line that is not broken. -/
lemma parseLog_text (hage : 0 ≤ LogLine.age l) (hcopied : ∀ bs ∈ LogLine.copied l, OneLine bs) :
    parseLog l.text = parseLine {} (LogLine.tag l ++ LogLine.fields l) := by
  have hread : readText (l.text ++ []) = _ := readText_text hage
  rw [List.append_nil] at hread
  refine parseLog_of_line hread (List.forall_mem_append.mpr ⟨(plain_tag l).not_isLineBoundary, ?_⟩)
  exact forall_mem_fields (fun cs hcs => hcs.plain.not_isLineBoundary) hage hcopied

end Parts

/-! ## What is found in a line -/

section Found

variable {field rest : List Char} {q : ℚ}

lemma not_isNumeric_head?_append {e : List Char} (he : ∀ c ∈ e.head?, isNumeric c = false)
    (hrest : ∀ c ∈ rest.head?, isNumeric c = false) :
    ∀ c ∈ (e ++ rest).head?, isNumeric c = false := by
  cases e with
  | nil => exact hrest
  | cons c e => exact he

/-- The age on a `[lat]` line, whatever follows it. -/
lemma groupValue_lat (hq : 0 ≤ q) (hrest : ∀ c ∈ rest.head?, isNumeric c = false) :
    ∃ v, groupValue reLat 0 (['[', 'l', 'a', 't', ']'] ++ ([' '] ++
        (['d', 't', '_', 'm', 's', '='] ++ (double q ++ rest)))) = some v
      ∧ (|v - q| ≤ 5 / 10 ^ 6 * q ↔ InFixedRange q) := by
  rcases double_of_nonneg hq with ⟨m, d, e, htext, -, hhead, herror⟩
  have hmatch : matchAt reLat (['[', 'l', 'a', 't', ']'] ++ ([' '] ++
      (['d', 't', '_', 'm', 's', '='] ++ (double q ++ rest)))) = some [Numerals.fixed m d] := by
    rw [reLat, matchAt_word, htext, List.append_assoc]
    exact matchAt_age (by simp) (by rintro _ ⟨⟩; decide) (fun _ => isNumeric_of_mem_fixed)
      (fixed_ne_nil m d) (not_isNumeric_head?_append hhead hrest)
  exact ⟨_, groupValue_of_search (search_of_matchAt hmatch) rfl, herror⟩

/-- The key and the age on a line about a key. -/
lemma search_keyed (hfield : field ≠ []) (hhead : ∀ c ∈ field.head?, isSpace c = false)
    (key : UInt8) (hq : 0 ≤ q) (tag : List Char) :
    ∃ m d, search (word tag ++ keyedPattern field) (tag ++ keyedFields field key q)
        = some [unsigned key.toNat, Numerals.fixed m d]
      ∧ (|(m : ℚ) / 10 ^ d - q| ≤ 5 / 10 ^ 6 * q ↔ InFixedRange q) := by
  rcases double_of_nonneg hq with ⟨m, d, e, htext, -, hnumeric, herror⟩
  refine ⟨m, d, search_of_matchAt ?_, herror⟩
  rw [matchAt_word, keyedFields, htext]
  exact matchAt_keyed hfield hhead (fun _ => isDigit_of_mem_toDigits) Nat.toDigits_ne_nil
    (fun _ => isNumeric_of_mem_fixed) (fixed_ne_nil m d) hnumeric

end Found

end QuicKeys.Scripts
