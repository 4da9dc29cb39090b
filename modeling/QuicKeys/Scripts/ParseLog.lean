import QuicKeys.Lib.Ascii
import QuicKeys.Lib.Numerals
import QuicKeys.Lib.Pattern

/-!
# Reading the daemon's log

`parse_log` of the experiment script. The text of the file is decoded from UTF-8, ignoring
what is not, and taken line by line; the numbers found are exact here. (Opening the file
in text mode turns every end of line into `\n`, which changes no line.)
-/

namespace QuicKeys.Scripts

open Pattern

/-! ## The text of the file -/

def isContinuation (b : UInt8) : Bool := 0x80 ≤ b && b < 0xC0

/-- The number of continuation bytes that follow a first byte, and its share of the code
point. -/
def firstByte (b : UInt8) : Option (ℕ × ℕ) :=
  if b < 0x80 then some (0, b.toNat)
  else if 0xC2 ≤ b ∧ b ≤ 0xDF then some (1, b.toNat % 32)
  else if 0xE0 ≤ b ∧ b ≤ 0xEF then some (2, b.toNat % 16)
  else if 0xF0 ≤ b ∧ b ≤ 0xF4 then some (3, b.toNat % 8)
  else none

/-- The least code point that needs `k` continuation bytes. -/
def leastCode : ℕ → ℕ
  | 0 => 0
  | 1 => 0x80
  | 2 => 0x800
  | _ => 0x10000

/-- The character whose encoding starts here. -/
def charAt (b : UInt8) (bs : List UInt8) : Option Char :=
  match firstByte b with
  | none => none
  | some (k, lead) =>
    let cs := (bs.takeWhile isContinuation).take k
    let n := cs.foldl (fun n c => 64 * n + c.toNat % 64) lead
    if cs.length = k ∧ leastCode k ≤ n ∧ n.isValidChar then some (Char.ofNat n) else none

/-- `read_text(errors="ignore")`. No encoding starts inside another one. -/
def readText : List UInt8 → List Char
  | [] => []
  | b :: bs => (charAt b bs).toList ++ readText bs

/-- The characters that end a line for `str.splitlines`. -/
def isLineBoundary (c : Char) : Bool :=
  [0x0A, 0x0B, 0x0C, 0x0D, 0x1C, 0x1D, 0x1E, 0x85, 0x2028, 0x2029].contains c.toNat

/-- `splitlines`, behind the part `line` of the current line. -/
def splitlinesFrom (line : List Char) : List Char → List (List Char)
  | [] => if line = [] then [] else [line]
  | '\r' :: '\n' :: cs => line :: splitlinesFrom [] cs
  | c :: cs =>
    if isLineBoundary c then line :: splitlinesFrom [] cs else splitlinesFrom (line ++ [c]) cs

def splitlines (cs : List Char) : List (List Char) := splitlinesFrom [] cs

/-! ## The patterns -/

/-- `\s` -/
def isSpace (c : Char) : Bool :=
  [0x09, 0x0A, 0x0B, 0x0C, 0x0D, 0x1C, 0x1D, 0x1E, 0x1F, 0x20, 0x85, 0xA0, 0x1680, 0x2000,
    0x2001, 0x2002, 0x2003, 0x2004, 0x2005, 0x2006, 0x2007, 0x2008, 0x2009, 0x200A, 0x2028,
    0x2029, 0x202F, 0x205F, 0x3000].contains c.toNat

/-- The zeros of the decimal digits of Unicode, each followed by its nine other digits. -/
def zeros : List ℕ :=
  [0x30, 0x660, 0x6F0, 0x7C0, 0x966, 0x9E6, 0xA66, 0xAE6, 0xB66, 0xBE6, 0xC66, 0xCE6, 0xD66,
    0xDE6, 0xE50, 0xED0, 0xF20, 0x1040, 0x1090, 0x17E0, 0x1810, 0x1946, 0x19D0, 0x1A80, 0x1A90,
    0x1B50, 0x1BB0, 0x1C40, 0x1C50, 0xA620, 0xA8D0, 0xA900, 0xA9D0, 0xA9F0, 0xAA50, 0xABF0,
    0xFF10, 0x104A0, 0x10D30, 0x11066, 0x110F0, 0x11136, 0x111D0, 0x112F0, 0x11450, 0x114D0,
    0x11650, 0x116C0, 0x11730, 0x118E0, 0x11950, 0x11C50, 0x11D50, 0x11DA0, 0x16A60, 0x16AC0,
    0x16B50, 0x1D7CE, 0x1D7D8, 0x1D7E2, 0x1D7EC, 0x1D7F6, 0x1E140, 0x1E2F0, 0x1E950, 0x1FBF0]

/-- The zero that `c` belongs to, if it is a digit. -/
def zeroOf (c : Char) : Option ℕ := zeros.find? fun z => z ≤ c.toNat && c.toNat ≤ z + 9

/-- `\d` -/
def isDecimal (c : Char) : Bool := (zeroOf c).isSome

/-- `[0-9.]` -/
def isNumeric (c : Char) : Bool := c.isDigit || c == '.'

/-- `RE_LAT` -/
def reLat : List (Piece Char) :=
  word ['[', 'l', 'a', 't', ']'] ++ .run false isSpace ::
    (word ['d', 't', '_', 'm', 's', '='] ++ [.run true isNumeric])

/-- `RE_HEAL` -/
def reHeal : List (Piece Char) :=
  word ['[', 'h', 'e', 'a', 'l', ']'] ++ .run false isSpace ::
    (word ['k', 'e', 'y', '='] ++ .run true isDecimal :: .run false isSpace ::
      (word ['h', 'e', 'a', 'l', '_', 'm', 's', '='] ++ [.run true isNumeric]))

/-- `RE_WD` -/
def reWd : List (Piece Char) :=
  word ['[', 'w', 'a', 't', 'c', 'h', 'd', 'o', 'g', ']'] ++ .run false isSpace ::
    (word ['k', 'e', 'y', '='] ++ .run true isDecimal :: .run false isSpace ::
      (word ['a', 'g', 'e', '_', 'm', 's', '='] ++ [.run true isNumeric]))

/-! ## The parser -/

/-- The ASCII digit of the same value, which is what `float` reads a digit as. -/
def asciiDigit (c : Char) : Char :=
  match zeroOf c with
  | some z => Nat.digitChar (c.toNat - z)
  | none => c

/-- `float` of a match of `\d+(?:\.\d+)?`, with the digits before and behind the point. -/
def float (whole frac : List Char) : ℚ :=
  Nat.ofDigitChars 10 (whole.map asciiDigit) 0 + Numerals.fraction (frac.map asciiDigit)

/-- `_parse_float_prefix` -/
def parseFloatPrefix (s : List Char) : Option ℚ :=
  let whole := s.takeWhile isDecimal
  if whole = [] then none
  else match s.dropWhile isDecimal with
    | '.' :: rest => some (float whole (rest.takeWhile isDecimal))
    | _ => some (float whole [])

/-- What `parse_log` collects. -/
structure Parsed where
  lats : List ℚ := []
  heals : List ℚ := []
  watchdog : ℕ := 0
deriving DecidableEq

/-- The value of the `i`-th captured group, if the line matches and the group is a number. -/
def groupValue (re : List (Piece Char)) (i : ℕ) (line : List Char) : Option ℚ := do
  let gs ← search re line
  let g ← gs[i]?
  parseFloatPrefix g

/-- The body of the loop of `parse_log`. -/
def parseLine (r : Parsed) (line : List Char) : Parsed where
  lats := r.lats ++ (groupValue reLat 0 line).toList
  heals := r.heals ++ (groupValue reHeal 1 line).toList
  watchdog := if (search reWd line).isSome then r.watchdog + 1 else r.watchdog

lemma lats_parseLine (line : List Char) :
    (parseLine {} line).lats = (groupValue reLat 0 line).toList := List.nil_append _

lemma heals_parseLine (line : List Char) :
    (parseLine {} line).heals = (groupValue reHeal 1 line).toList := List.nil_append _

def parseLog (bytes : List UInt8) : Parsed := (splitlines (readText bytes)).foldl parseLine {}

/-! ## Lines -/

section Lines

variable {bs rest : List UInt8} {cs line : List Char}

/-- Text that no continuation byte follows is decoded on its own. -/
lemma charAt_append (hrest : ∀ x ∈ rest.head?, isContinuation x = false) (b : UInt8)
    (bs : List UInt8) : charAt b (bs ++ rest) = charAt b bs := by
  have htake : (bs ++ rest).takeWhile isContinuation = bs.takeWhile isContinuation := by
    induction bs with
    | nil =>
      cases rest with
      | nil => rfl
      | cons x rest => exact List.takeWhile_cons_of_neg (by simpa using hrest x rfl)
    | cons c bs ih =>
      rw [List.cons_append, List.takeWhile_cons, List.takeWhile_cons, ih]
  rw [charAt, charAt, htake]

lemma readText_append (hrest : ∀ x ∈ rest.head?, isContinuation x = false) :
    readText (bs ++ rest) = readText bs ++ readText rest := by
  induction bs with
  | nil => rfl
  | cons b bs ih => rw [List.cons_append, readText, readText, charAt_append hrest, ih,
      List.append_assoc]

lemma charAt_ascii {c : Char} (hc : c.toNat < 128) (bs : List UInt8) :
    charAt (UInt8.ofNat c.toNat) bs = some c := by
  have hval : (UInt8.ofNat c.toNat).toNat = c.toNat := by
    rw [UInt8.toNat_ofNat']
    omega
  have hfirst : firstByte (UInt8.ofNat c.toNat) = some (0, c.toNat) := by
    rw [firstByte, if_pos (UInt8.lt_iff_toNat_lt.mpr (by rw [hval]; exact hc)), hval]
  have hvalid : c.toNat.isValidChar := Or.inl (by omega)
  rw [charAt, hfirst]
  simp [leastCode, hvalid, Char.ofNat_toNat]

/-- ASCII text is decoded as itself, whatever follows. -/
lemma readText_ascii_append (hcs : ∀ c ∈ cs, c.toNat < 128) (rest : List UInt8) :
    readText (Ascii.ascii cs ++ rest) = cs ++ readText rest := by
  induction cs with
  | nil => rfl
  | cons c cs ih =>
    rw [Ascii.ascii, List.map_cons, List.cons_append, readText, charAt_ascii (hcs c (by simp)),
      Option.toList_some, ← Ascii.ascii, ih fun d hd => hcs d (List.mem_cons_of_mem _ hd)]
    rfl

lemma not_isContinuation_of_ascii {c : Char} (hc : c.toNat < 128) :
    isContinuation (UInt8.ofNat c.toNat) = false := by
  have hval : (UInt8.ofNat c.toNat).toNat = c.toNat := by
    rw [UInt8.toNat_ofNat']
    omega
  have hlow : ¬(0x80 : UInt8) ≤ UInt8.ofNat c.toNat := by
    rw [UInt8.le_iff_toNat_le, hval]
    show ¬128 ≤ _
    omega
  simp [isContinuation, hlow]

/-- A line ends where its text does. -/
lemma splitlinesFrom_line (hcs : ∀ c ∈ cs, isLineBoundary c = false) (line more : List Char) :
    splitlinesFrom line (cs ++ '\n' :: more) = (line ++ cs) :: splitlinesFrom [] more := by
  induction cs generalizing line with
  | nil =>
    rw [List.nil_append, List.append_nil, splitlinesFrom, if_pos (by decide)]
    rintro _ ⟨⟩
  | cons c cs ih =>
    have hc := hcs c List.mem_cons_self
    have hcr : c ≠ '\r' := by
      rintro rfl
      exact absurd hc (by decide)
    rw [List.cons_append, splitlinesFrom, if_neg (by simp [hc]),
      ih fun d hd => hcs d (List.mem_cons_of_mem _ hd)]
    · simp
    · rintro _ rfl
      exact absurd rfl hcr

/-- `parse_log` on the bytes of one line. -/
lemma parseLog_of_line (hbs : readText bs = cs ++ ['\n'])
    (hcs : ∀ c ∈ cs, isLineBoundary c = false) : parseLog bs = parseLine {} cs := by
  rw [parseLog, hbs, splitlines, splitlinesFrom_line hcs]
  rfl

end Lines

/-! ## Numbers -/

section Numbers

variable {cs rest field v key : List Char}

lemma zeroOf_of_isDigit {c : Char} (h : c.isDigit = true) : zeroOf c = some 0x30 := by
  rcases Ascii.toNat_lt_of_isDigit h with ⟨h1, h2⟩
  rw [zeroOf, zeros, List.find?_cons_of_pos]
  simp [h1, h2]

lemma isDecimal_of_isDigit {c : Char} (h : c.isDigit = true) : isDecimal c = true := by
  rw [isDecimal, zeroOf_of_isDigit h]
  rfl

lemma asciiDigit_of_isDigit {c : Char} (h : c.isDigit = true) : asciiDigit c = c := by
  rcases Ascii.toNat_lt_of_isDigit h with ⟨h1, h2⟩
  rw [asciiDigit, zeroOf_of_isDigit h, ← Char.toNat_inj,
    Nat.toNat_digitChar_of_lt_ten (by omega)]
  omega

lemma map_asciiDigit (hcs : ∀ c ∈ cs, c.isDigit = true) : cs.map asciiDigit = cs :=
  (List.map_congr_left fun c hc => asciiDigit_of_isDigit (hcs c hc)).trans (List.map_id cs)

lemma takeWhile_isDecimal (hcs : ∀ c ∈ cs, c.isDigit = true) :
    cs.takeWhile isDecimal = cs :=
  List.takeWhile_eq_self_iff.mpr fun c hc => isDecimal_of_isDigit (hcs c hc)

/-- Digits, and digits behind a point if there are any. -/
lemma parseFloatPrefix_point {whole frac : List Char} (hne : whole ≠ [])
    (hwhole : ∀ c ∈ whole, c.isDigit = true) (hfrac : ∀ c ∈ frac, c.isDigit = true) :
    parseFloatPrefix (whole ++ if frac = [] then [] else '.' :: frac)
      = some (Nat.ofDigitChars 10 whole 0 + Numerals.fraction frac) := by
  have hdec : ∀ c ∈ whole, isDecimal c = true := fun c hc => isDecimal_of_isDigit (hwhole c hc)
  have hpoint : isDecimal '.' = false := by decide
  split_ifs with hempty
  · rw [List.append_nil, parseFloatPrefix, takeWhile_isDecimal hwhole, if_neg hne,
      List.dropWhile_eq_nil_iff.mpr hdec, hempty]
    simp only [float, map_asciiDigit hwhole]
    rfl
  · have htake : (whole ++ '.' :: frac).takeWhile isDecimal = whole := by
      rw [List.takeWhile_append_of_pos hdec, List.takeWhile_cons_of_neg (by simp [hpoint]),
        List.append_nil]
    have hdrop : (whole ++ '.' :: frac).dropWhile isDecimal = '.' :: frac := by
      rw [List.dropWhile_append_of_pos hdec, List.dropWhile_cons_of_neg (by simp [hpoint])]
    rw [parseFloatPrefix, htake, if_neg hne, hdrop]
    simp only [float, takeWhile_isDecimal hfrac, map_asciiDigit hwhole, map_asciiDigit hfrac]

lemma isDigit_of_mem_toDigits {n : ℕ} {c : Char} (h : c ∈ Nat.toDigits 10 n) : c.isDigit = true :=
  Nat.isDigit_of_mem_toDigits (by decide) (Nat.le_refl _) h

/-- **A number in fixed notation is read back as it stands.** -/
theorem parseFloatPrefix_fixed (m d : ℕ) :
    parseFloatPrefix (Numerals.fixed m d) = some ((m : ℚ) / 10 ^ d) := by
  rw [← Numerals.value_fixed]
  exact parseFloatPrefix_point Nat.toDigits_ne_nil (fun _ => isDigit_of_mem_toDigits)
    (fun _ => Numerals.isDigit_of_mem_fractionDigits)

lemma fixed_ne_nil (m d : ℕ) : Numerals.fixed m d ≠ [] := by
  rw [Numerals.fixed]
  exact List.append_ne_nil_of_left_ne_nil Nat.toDigits_ne_nil _

lemma isNumeric_of_mem_fixed {m d : ℕ} {c : Char} (h : c ∈ Numerals.fixed m d) :
    isNumeric c = true := by
  rw [isNumeric, Bool.or_eq_true, beq_iff_eq]
  rcases List.mem_append.mp h with h | h
  · exact Or.inl (isDigit_of_mem_toDigits h)
  · split at h
    · exact absurd h List.not_mem_nil
    · rcases List.mem_cons.mp h with h | h
      · exact Or.inr h
      · exact Or.inl (Numerals.isDigit_of_mem_fractionDigits h)

/-- `\s+` takes a single blank. -/
lemma matchAt_blank {ps : List (Piece Char)} {gs : List (List Char)}
    (hcs : ∀ c ∈ cs.head?, isSpace c = false) (h : matchAt ps cs = some gs) :
    matchAt (.run false isSpace :: ps) ([' '] ++ cs) = some gs :=
  matchAt_run false (List.forall_mem_singleton.mpr (by decide)) (by simp) hcs h

/-- The value behind the name of a field. -/
lemma matchAt_age (hfield : field ≠ []) (hhead : ∀ c ∈ field.head?, isSpace c = false)
    (hv : ∀ c ∈ v, isNumeric c = true) (hne : v ≠ [])
    (hrest : ∀ c ∈ rest.head?, isNumeric c = false) :
    matchAt (.run false isSpace :: (word field ++ [.run true isNumeric]))
      ([' '] ++ (field ++ (v ++ rest))) = some [v] := by
  refine matchAt_blank ?_ ?_
  · rwa [List.head?_append_of_ne_nil _ hfield]
  · rw [matchAt_word]
    exact matchAt_run true hv hne hrest rfl

/-- What follows the tag in the patterns with a key. -/
def keyedPattern (field : List Char) : List (Piece Char) :=
  .run false isSpace :: (word ['k', 'e', 'y', '='] ++ .run true isDecimal :: .run false isSpace ::
    (word field ++ [.run true isNumeric]))

/-- The digits behind `key=`, and the value behind the name of the other field. -/
lemma matchAt_keyed (hfield : field ≠ []) (hhead : ∀ c ∈ field.head?, isSpace c = false)
    (hkey : ∀ c ∈ key, c.isDigit = true) (hkne : key ≠ []) (hv : ∀ c ∈ v, isNumeric c = true)
    (hne : v ≠ []) (hrest : ∀ c ∈ rest.head?, isNumeric c = false) :
    matchAt (keyedPattern field) ([' '] ++ (['k', 'e', 'y', '='] ++ (key ++ ([' '] ++ (field ++
      (v ++ rest)))))) = some [key, v] := by
  refine matchAt_blank (by rintro _ ⟨⟩; decide) ?_
  rw [matchAt_word]
  exact matchAt_run true (fun c hc => isDecimal_of_isDigit (hkey c hc)) hkne
    (by rintro _ ⟨⟩; decide) (matchAt_age hfield hhead hv hne hrest)

/-- A captured number in fixed notation. -/
lemma groupValue_of_search {re : List (Piece Char)} {i m d : ℕ} {gs : List (List Char)}
    (hsearch : search re cs = some gs) (hi : gs[i]? = some (Numerals.fixed m d)) :
    groupValue re i cs = some ((m : ℚ) / 10 ^ d) := by
  rw [groupValue, hsearch, ← parseFloatPrefix_fixed]
  show (gs[i]?).bind parseFloatPrefix = _
  rw [hi]
  rfl

end Numbers

end QuicKeys.Scripts
