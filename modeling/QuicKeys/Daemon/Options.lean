import QuicKeys.Daemon.Datagrams

/-!
# The command line

`parse_args` walks over the arguments once. An option that takes a value takes the next
argument, whatever it is, and the empty text behind the last one; words it does not know are
skipped. What `std::stoi` throws is not caught, so the daemon does not start.
-/

namespace QuicKeys.Daemon

open Ascii

/-! ## Parsing -/

/-- `Args`, with the members that no handler reads. -/
structure Options extends Args where
  udpBind : List UInt8 := ascii ['0', '.', '0', '.', '0', '.', '0']
  udpPort : UInt16 := 4444
  hidSocket : List UInt8 := ascii ['/', 't', 'm', 'p', '/', 'h', 'i', 'd', 'r', 'a', '.', 'k',
    'b', 'd']

/-- The range of an `int`. -/
def IsInt (n : ℤ) : Prop := -2 ^ 31 ≤ n ∧ n < 2 ^ 31

instance (n : ℤ) : Decidable (IsInt n) := inferInstanceAs (Decidable (_ ∧ _))

/-- `std::stoi`: optional white space, an optional sign, and the longest run of digits; `none`
is the exception, thrown if there is no digit or the value is not an `int`. -/
def stoi (s : List UInt8) : Option Int32 :=
  let s := s.dropWhile isSpace
  let negative := s.head? == some 0x2D
  let s := if s.head? == some 0x2B || s.head? == some 0x2D then s.tail else s
  let digits := s.takeWhile isDigit
  if digits.isEmpty then none
  else
    let n : ℤ := if negative then -digitsValue digits else digitsValue digits
    if IsInt n then some (Int32.ofInt n) else none

/-- The options that take a value. -/
inductive ValueOption
  | udpEdges
  | hidSocket
  | watchdogMs
  | deadlineMs
  | stuckMs
deriving DecidableEq

/-- The words for them. -/
def ValueOption.word : ValueOption → List UInt8
  | .udpEdges => ascii ['-', '-', 'u', 'd', 'p', '-', 'e', 'd', 'g', 'e', 's']
  | .hidSocket => ascii ['-', '-', 'h', 'i', 'd', '-', 's', 'o', 'c', 'k', 'e', 't']
  | .watchdogMs => ascii ['-', '-', 'w', 'a', 't', 'c', 'h', 'd', 'o', 'g', '-', 'm', 's']
  | .deadlineMs => ascii ['-', '-', 'd', 'e', 'a', 'd', 'l', 'i', 'n', 'e', '-', 'm', 's']
  | .stuckMs => ascii ['-', '-', 's', 't', 'u', 'c', 'k', '-', 'm', 's']

/-- `--verbose` and `-v`. -/
def isVerbose (s : List UInt8) : Bool :=
  s = ascii ['-', '-', 'v', 'e', 'r', 'b', 'o', 's', 'e'] || s = ascii ['-', 'v']

/-- Which of the branches of the loop body `s` takes, in their order. -/
def valueOption (s : List UInt8) : Option ValueOption :=
  if s = ValueOption.udpEdges.word then some .udpEdges
  else if s = ValueOption.hidSocket.word then some .hidSocket
  else if s = ValueOption.watchdogMs.word then some .watchdogMs
  else if s = ValueOption.deadlineMs.word then some .deadlineMs
  else if s = ValueOption.stuckMs.word then some .stuckMs
  else none

/-- The branch of an option, with the text `next()` returns. -/
def setValue (v : List UInt8) (a : Options) : ValueOption → Option Options
  | .udpEdges =>
    -- the first colon; without one the value is ignored
    if 0x3A ∈ v then
      (stoi ((v.dropWhile (· != 0x3A)).drop 1)).map fun port =>
        { a with udpBind := v.takeWhile (· != 0x3A), udpPort := port.toUInt32.toUInt16 }
    else some a
  | .hidSocket => some { a with hidSocket := v }
  | .watchdogMs => (stoi v).map fun n => { a with watchdogMs := n }
  | .deadlineMs => (stoi v).map fun n => { a with deadlineMs := n }
  | .stuckMs => (stoi v).map fun n => { a with stuckMs := n }

/-- The branches without a value. -/
def setFlag (s : List UInt8) (a : Options) : Options :=
  if isVerbose s then { a with verbose := true } else a

/-- `parse_args`, on the arguments behind the name of the program; `none` if `stoi` throws. -/
def parseArgs : List (List UInt8) → Options → Option Options
  | [], a => some a
  | [s], a =>
    match valueOption s with
    | some o => setValue [] a o
    | none => some (setFlag s a)
  | s :: v :: rest, a =>
    match valueOption s with
    | some o => (setValue v a o).bind (parseArgs rest)
    | none => parseArgs (v :: rest) (setFlag s a)

/-! ## Settings -/

/-- What a command line says, piece by piece. -/
inductive Setting
  | udpEdges (host : List UInt8) (port : ℤ)
  | udpEdgesNoPort (host : List UInt8)
  | hidSocket (path : List UInt8)
  | watchdogMs (n : ℤ)
  | deadlineMs (n : ℤ)
  | stuckMs (n : ℤ)
  | verbose
  | other (word : List UInt8)

/-- The decimal text of an integer. -/
def signed (n : ℤ) : List UInt8 := (if n < 0 then [0x2D] else []) ++ decimal n.natAbs

/-- The arguments of a setting. -/
def Setting.words : Setting → List (List UInt8)
  | .udpEdges host port => [ValueOption.udpEdges.word, host ++ 0x3A :: signed port]
  | .udpEdgesNoPort host => [ValueOption.udpEdges.word, host]
  | .hidSocket path => [ValueOption.hidSocket.word, path]
  | .watchdogMs n => [ValueOption.watchdogMs.word, signed n]
  | .deadlineMs n => [ValueOption.deadlineMs.word, signed n]
  | .stuckMs n => [ValueOption.stuckMs.word, signed n]
  | .verbose => [ascii ['-', '-', 'v', 'e', 'r', 'b', 'o', 's', 'e']]
  | .other word => [word]

/-- A host has no colon, and another word is no option. -/
def Setting.WellFormed : Setting → Prop
  | .udpEdges host _ => 0x3A ∉ host
  | .udpEdgesNoPort host => 0x3A ∉ host
  | .other word => valueOption word = none ∧ isVerbose word = false
  | _ => True

/-- Its number is an `int`. -/
def Setting.Fits : Setting → Prop
  | .udpEdges _ port => IsInt port
  | .watchdogMs n => IsInt n
  | .deadlineMs n => IsInt n
  | .stuckMs n => IsInt n
  | _ => True

instance : (x : Setting) → Decidable x.Fits
  | .udpEdges _ port => inferInstanceAs (Decidable (IsInt port))
  | .watchdogMs n => inferInstanceAs (Decidable (IsInt n))
  | .deadlineMs n => inferInstanceAs (Decidable (IsInt n))
  | .stuckMs n => inferInstanceAs (Decidable (IsInt n))
  | .udpEdgesNoPort _ => inferInstanceAs (Decidable True)
  | .hidSocket _ => inferInstanceAs (Decidable True)
  | .verbose => inferInstanceAs (Decidable True)
  | .other _ => inferInstanceAs (Decidable True)

/-- What it sets. -/
def Setting.apply (a : Options) : Setting → Options
  | .udpEdges host port =>
    { a with udpBind := host, udpPort := UInt16.ofNat (port % 2 ^ 16).toNat }
  -- without a colon nothing is set
  | .udpEdgesNoPort _ => a
  | .hidSocket path => { a with hidSocket := path }
  | .watchdogMs n => { a with watchdogMs := Int32.ofInt n }
  | .deadlineMs n => { a with deadlineMs := Int32.ofInt n }
  | .stuckMs n => { a with stuckMs := Int32.ofInt n }
  | .verbose => { a with verbose := true }
  | .other _ => a

/-! ## Numbers -/

/-- A digit is neither white space nor a sign. -/
lemma ne_of_isDigit {b : UInt8} (h : isDigit b = true) :
    isSpace b = false ∧ b ≠ 0x2D ∧ b ≠ 0x2B := by
  simp only [isDigit, isSpace, Bool.and_eq_true, decide_eq_true_eq, UInt8.le_iff_toNat_le,
    Bool.or_eq_false_iff, Bool.and_eq_false_iff, beq_eq_false_iff_ne, decide_eq_false_iff_not,
    Ne, ← UInt8.toNat_inj] at h ⊢
  rw [show (0x30 : UInt8).toNat = 48 from rfl] at h
  have hd : (0x0D : UInt8).toNat = 13 := rfl
  have hspace : (0x20 : UInt8).toNat = 32 := rfl
  have hminus : (0x2D : UInt8).toNat = 45 := rfl
  have hplus : (0x2B : UInt8).toNat = 43 := rfl
  omega

/-- `stoi` reads back an integer, if it is an `int`. -/
lemma stoi_signed (n : ℤ) : stoi (signed n) = if IsInt n then some (Int32.ofInt n) else none := by
  rcases List.exists_cons_of_ne_nil (decimal_ne_nil n.natAbs) with ⟨d, ds, hds⟩
  have hall : ∀ b ∈ d :: ds, isDigit b = true := by
    intro b hb
    rw [← hds] at hb
    exact isDigit_of_mem_decimal hb
  rcases ne_of_isDigit (hall d List.mem_cons_self) with ⟨hspace, hminus, hplus⟩
  have hvalue := digitsValue_decimal n.natAbs
  have htake : (d :: ds).takeWhile isDigit = d :: ds := List.takeWhile_eq_self_iff.mpr hall
  unfold stoi signed
  rw [hds] at hvalue ⊢
  by_cases hn : n < 0
  · have hdrop : ([0x2D] ++ d :: ds).dropWhile isSpace = 0x2D :: d :: ds := rfl
    have habs : -((n.natAbs : ℕ) : ℤ) = n := by omega
    rw [if_pos hn, hdrop]
    simp only [List.head?_cons, beq_self_eq_true, Bool.or_true, if_true, List.tail_cons, htake,
      hvalue, habs, List.isEmpty_cons, Bool.false_eq_true, if_false]
  · have habs : ((n.natAbs : ℕ) : ℤ) = n := by omega
    have hsome (x : UInt8) : ((some d : Option UInt8) == some x) = (d == x) := rfl
    rw [if_neg hn, List.nil_append, List.dropWhile_cons_of_neg (by simp [hspace])]
    simp only [List.head?_cons, hsome, beq_eq_false_iff_ne.mpr hminus,
      beq_eq_false_iff_ne.mpr hplus, Bool.or_self, Bool.false_eq_true, if_false, htake, hvalue,
      habs, List.isEmpty_cons]

/-- The cast of a port keeps its low 16 bits. -/
lemma toUInt16_ofInt (n : ℤ) :
    (Int32.ofInt n).toUInt32.toUInt16 = UInt16.ofNat (n % 2 ^ 16).toNat := by
  have hword : (Int32.ofInt n).toUInt32.toNat = (n % 2 ^ 32).toNat := BitVec.toNat_ofInt n
  rw [← UInt16.toNat_inj, UInt32.toNat_toUInt16, hword, UInt16.toNat_ofNat']
  omega

/-! ## One setting -/

lemma valueOption_word (o : ValueOption) : valueOption o.word = some o := by
  cases o <;> rfl

/-- A word that is no option with a value leaves the next one alone. -/
lemma parseArgs_cons_of_none {s : List UInt8} (h : valueOption s = none)
    (rest : List (List UInt8)) (a : Options) :
    parseArgs (s :: rest) a = parseArgs rest (setFlag s a) := by
  cases rest with
  | nil => simp only [parseArgs, h]
  | cons v rest => simp only [parseArgs, h]

/-- An option with a value takes the next word. -/
lemma parseArgs_cons_word (o : ValueOption) (v : List UInt8) (rest : List (List UInt8))
    (a : Options) : parseArgs (o.word :: v :: rest) a = (setValue v a o).bind (parseArgs rest) := by
  rw [parseArgs, valueOption_word]

/-- The value of `--udp-edges` is split at its first colon. -/
lemma setValue_udpEdges {host : List UInt8} (h : 0x3A ∉ host) (port : ℤ) (a : Options) :
    setValue (host ++ 0x3A :: signed port) a .udpEdges
      = if IsInt port then some (Setting.apply a (.udpEdges host port)) else none := by
  have hhost : ∀ b ∈ host, (b != 0x3A) = true := by
    intro b hb
    rw [bne_iff_ne]
    rintro rfl
    exact h hb
  rw [setValue, if_pos (by simp), List.takeWhile_append_of_pos hhost,
    List.dropWhile_append_of_pos hhost, List.takeWhile_cons_of_neg (by simp),
    List.dropWhile_cons_of_neg (by simp), List.drop_one, List.tail_cons, List.append_nil,
    stoi_signed]
  split
  · rw [Option.map_some, toUInt16_ofInt]
    rfl
  · rfl

/-- **One setting** sets what it says, or `stoi` throws. -/
lemma parseArgs_words {x : Setting} (h : x.WellFormed) (rest : List (List UInt8)) (a : Options) :
    parseArgs (x.words ++ rest) a
      = if x.Fits then parseArgs rest (x.apply a) else none := by
  have hnumber (o : ValueOption) (n : ℤ) (set : Int32 → Options)
      (ho : ∀ v, setValue v a o = (stoi v).map set) :
      parseArgs (o.word :: signed n :: rest) a
        = if IsInt n then parseArgs rest (set (Int32.ofInt n)) else none := by
    rw [parseArgs_cons_word, ho, stoi_signed]
    split <;> rfl
  cases x with
  | udpEdges host port =>
    show parseArgs (ValueOption.udpEdges.word :: (host ++ 0x3A :: signed port) :: rest) a = _
    rw [parseArgs_cons_word, setValue_udpEdges h]
    by_cases hfits : IsInt port
    · rw [if_pos hfits, if_pos (show (Setting.udpEdges host port).Fits from hfits)]
      rfl
    · rw [if_neg hfits, if_neg (show ¬(Setting.udpEdges host port).Fits from hfits)]
      rfl
  | udpEdgesNoPort host =>
    refine (parseArgs_cons_word .udpEdges host rest a).trans ?_
    rw [setValue, if_neg h]
    exact (if_pos trivial).symm
  | hidSocket path => exact (parseArgs_cons_word .hidSocket path rest a).trans (if_pos trivial).symm
  | watchdogMs n => exact hnumber .watchdogMs n _ fun _ => rfl
  | deadlineMs n => exact hnumber .deadlineMs n _ fun _ => rfl
  | stuckMs n => exact hnumber .stuckMs n _ fun _ => rfl
  | verbose =>
    refine (parseArgs_cons_of_none rfl rest a).trans (if_pos trivial).symm
  | other word =>
    refine (parseArgs_cons_of_none h.1 rest a).trans ?_
    rw [setFlag, if_neg (Bool.eq_false_iff.mp h.2)]
    exact (if_pos trivial).symm

/-! ## Command lines -/

/-- **A command line is read piece by piece**: whatever the settings are, however often and in
whatever order they are given, the last one of each kind counts; and a single number that is
no `int` keeps the daemon from starting. -/
theorem parseArgs_settings {xs : List Setting} (h : ∀ x ∈ xs, x.WellFormed) (a : Options) :
    parseArgs (xs.flatMap Setting.words) a
      = if ∀ x ∈ xs, x.Fits then some (xs.foldl Setting.apply a) else none := by
  induction xs generalizing a with
  | nil => simp [parseArgs]
  | cons x xs ih =>
    rcases List.forall_mem_cons.mp h with ⟨hx, hxs⟩
    rw [List.flatMap_cons, parseArgs_words hx, ih hxs]
    simp only [List.forall_mem_cons, List.foldl_cons]
    by_cases hfits : x.Fits
    · simp [hfits]
    · simp [hfits]

/-- `daemon_cmd` of `run_case`, behind the name of the program. -/
def daemonCmd (hidSock : List UInt8) (watchdogMs deadlineMs stuckMs : ℤ) : List Setting :=
  [.udpEdges (ascii ['0', '.', '0', '.', '0', '.', '0']) 4444, .hidSocket hidSock,
    .watchdogMs watchdogMs, .deadlineMs deadlineMs, .stuckMs stuckMs, .verbose]

lemma wellFormed_daemonCmd (hidSock : List UInt8) (watchdogMs deadlineMs stuckMs : ℤ) :
    ∀ x ∈ daemonCmd hidSock watchdogMs deadlineMs stuckMs, x.WellFormed := by
  have hhost : (0x3A : UInt8) ∉ ascii ['0', '.', '0', '.', '0', '.', '0'] := by decide
  simp only [daemonCmd, List.forall_mem_cons]
  exact ⟨hhost, trivial, trivial, trivial, trivial, trivial, fun _ h => absurd h List.not_mem_nil⟩

/-- The daemon starts with the watchdog, the deadline and the limit of the experiment. -/
theorem parseArgs_settings_daemonCmd :
    ∃ o, parseArgs ((daemonCmd [0x2F, 0x6B] 200 (-1) 300).flatMap Setting.words) {} = some o
      ∧ o.watchdogMs = 200 ∧ o.deadlineMs = -1 ∧ o.stuckMs = 300 ∧ o.verbose = true
      ∧ o.udpPort = 4444 ∧ o.hidSocket = [0x2F, 0x6B] := by
  rw [parseArgs_settings (wellFormed_daemonCmd _ _ _ _), if_pos]
  · exact ⟨_, rfl, rfl, rfl, rfl, rfl, rfl, rfl⟩
  · simp only [daemonCmd, List.forall_mem_cons]
    exact ⟨by decide, trivial, by decide, by decide, by decide, trivial,
      fun _ h => absurd h List.not_mem_nil⟩

end QuicKeys.Daemon
