import QuicKeys.Daemon.Edges
import QuicKeys.Lib.Ascii
import QuicKeys.Lib.Words

/-!
# UDP datagrams

The body of the receive loop: a datagram is split into tokens, an optional `t=<ns>` is
read off the front, stale edges are dropped, and what is left names a command and a key.

* `down a`
* `t=<ns> down a`
* `t=<ns> up ENTER`
* `t=<ns> mup a` (keyup marker for the healing measurement)
-/

namespace QuicKeys.Daemon

open Ascii

/-! ## The tokenizer -/

/-- `' '`, `'\n'`, `'\r'` or `'\t'`. -/
def isSeparator (c : UInt8) : Bool := c == 0x20 || c == 0x0A || c == 0x0D || c == 0x09

lemma eq_of_isSeparator {c : UInt8} (h : isSeparator c = true) :
    c = 0x20 ∨ c = 0x0A ∨ c = 0x0D ∨ c = 0x09 := by
  simpa only [isSeparator, Bool.or_eq_true, beq_iff_eq, or_assoc] using h

/-- An inner scan of the tokenizer: `while (i < s.size() && p(s[i])) ++i;`. -/
def scanWhile (p : UInt8 → Bool) (s : List UInt8) (i : ℕ) : ℕ :=
  if h : i < s.length then
    if p s[i] then scanWhile p s (i + 1) else i
  else i
termination_by s.length - i

lemma drop_scanWhile (p : UInt8 → Bool) (s : List UInt8) (i : ℕ) :
    s.drop (scanWhile p s i) = (s.drop i).dropWhile p := by
  induction i using scanWhile.induct p s with
  | case1 i h hp ih =>
    rw [scanWhile, dif_pos h, if_pos hp, ih]
    conv_rhs => rw [List.drop_eq_getElem_cons h, List.dropWhile_cons_of_pos hp]
  | case2 i h hp =>
    rw [scanWhile, dif_pos h, if_neg hp, List.drop_eq_getElem_cons h,
      List.dropWhile_cons_of_neg hp]
  | case3 i h =>
    rw [scanWhile, dif_neg h, List.drop_eq_nil_of_le (Nat.not_lt.mp h), List.dropWhile_nil]

lemma take_scanWhile (p : UInt8 → Bool) (s : List UInt8) (i : ℕ) :
    i ≤ scanWhile p s i
      ∧ (s.drop i).take (scanWhile p s i - i) = (s.drop i).takeWhile p := by
  induction i using scanWhile.induct p s with
  | case1 i h hp ih =>
    rcases ih with ⟨hle, htake⟩
    rw [scanWhile, dif_pos h, if_pos hp]
    refine ⟨by omega, ?_⟩
    conv_lhs => rw [List.drop_eq_getElem_cons h]
    conv_rhs => rw [List.drop_eq_getElem_cons h, List.takeWhile_cons_of_pos hp]
    rw [show scanWhile p s (i + 1) - i = (scanWhile p s (i + 1) - (i + 1)) + 1 by omega,
      List.take_succ_cons, htake]
  | case2 i h hp =>
    rw [scanWhile, dif_pos h, if_neg hp]
    refine ⟨le_rfl, ?_⟩
    conv_rhs => rw [List.drop_eq_getElem_cons h, List.takeWhile_cons_of_neg hp]
    rw [Nat.sub_self, List.take_zero]
  | case3 i h =>
    rw [scanWhile, dif_neg h]
    refine ⟨le_rfl, ?_⟩
    rw [Nat.sub_self, List.take_zero, List.drop_eq_nil_of_le (Nat.not_lt.mp h),
      List.takeWhile_nil]

/-- A scan stops in front of an element that does not satisfy `p`. -/
lemma not_scanWhile {p : UInt8 → Bool} {s : List UInt8} {i : ℕ} :
    ∀ a ∈ (s.drop (scanWhile p s i)).head?, p a = false := by
  intro a ha
  rw [drop_scanWhile] at ha
  have hne : (s.drop i).dropWhile p ≠ [] := by
    intro h
    simp [h] at ha
  have := List.head_dropWhile_not p hne
  rw [List.head?_eq_some_head hne] at ha
  rw [← Option.some.inj ha]
  exact this

/-- The scan over a token makes progress. -/
lemma lt_scanWhile {s : List UInt8} {i : ℕ} (h : scanWhile isSeparator s i < s.length) :
    i < scanWhile (fun c => !isSeparator c) s (scanWhile isSeparator s i) := by
  have hstop : isSeparator s[scanWhile isSeparator s i] = false :=
    not_scanWhile (p := isSeparator) (i := i) _ (by
      rw [List.head?_drop, List.getElem?_eq_getElem h]
      rfl)
  have h1 := (take_scanWhile isSeparator s i).1
  have h2 := (take_scanWhile (fun c => !isSeparator c) s (scanWhile isSeparator s i + 1)).1
  rw [scanWhile.eq_1 (fun c => !isSeparator c) s (scanWhile isSeparator s i), dif_pos h, hstop]
  simp only [Bool.not_false, if_true]
  omega

/-- The tokenizer, from index `i` on. -/
def tokenizeFrom (s : List UInt8) (i : ℕ) : List (List UInt8) :=
  if i < s.length then
    if _h : scanWhile isSeparator s i < s.length then
      let i := scanWhile isSeparator s i
      let j := scanWhile (fun c => !isSeparator c) s i
      (s.drop i).take (j - i) :: tokenizeFrom s j
    else []
  else []
termination_by s.length - i
decreasing_by
  have := lt_scanWhile _h
  omega

/-- `tok`. -/
def tokenize (s : List UInt8) : List (List UInt8) := tokenizeFrom s 0

/-- From any index on, the tokenizer finds the maximal runs of non-separators. -/
lemma tokenizeFrom_eq_words (s : List UInt8) (i : ℕ) :
    tokenizeFrom s i = Words.words isSeparator (s.drop i) := by
  induction i using tokenizeFrom.induct s with
  | case1 i hi h _ _ ih =>
    rw [tokenizeFrom, if_pos hi, dif_pos h]
    dsimp only
    have hne : s.drop (scanWhile isSeparator s i) ≠ [] := by
      rw [Ne, List.drop_eq_nil_iff]
      omega
    rw [← Words.words_dropWhile, ← drop_scanWhile, Words.words_of_not_sep not_scanWhile hne,
      (take_scanWhile _ s _).2, ih, drop_scanWhile (fun c => !isSeparator c)]
  | case2 i hi h =>
    rw [tokenizeFrom, if_pos hi, dif_neg h, ← Words.words_dropWhile, ← drop_scanWhile,
      List.drop_eq_nil_of_le (Nat.not_lt.mp h), Words.words_nil]
  | case3 i hi =>
    rw [tokenizeFrom, if_neg hi, List.drop_eq_nil_of_le (Nat.not_lt.mp hi), Words.words_nil]

/-- **The tokens of a datagram** are its maximal runs of non-separators. -/
theorem tokenize_eq_words (s : List UInt8) : tokenize s = Words.words isSeparator s :=
  tokenizeFrom_eq_words s 0

/-! ## Numbers and keys -/

/-- `isspace` in the C locale. -/
def isSpace (c : UInt8) : Bool := c == 0x20 || (0x09 ≤ c && c ≤ 0x0D)

/-- `std::stoull`: optional white space, an optional sign, and the longest run of digits;
`none` is the exception, thrown if there is no digit or the value needs more than 64 bits.
A minus sign negates modulo `2 ^ 64`. -/
def stoull (s : List UInt8) : Option UInt64 :=
  let s := s.dropWhile isSpace
  let negative := s.head? == some 0x2D
  let s := if s.head? == some 0x2B || s.head? == some 0x2D then s.tail else s
  let digits := s.takeWhile isDigit
  if digits.isEmpty then none
  else
    let n := digitsValue digits
    if n < 2 ^ 64 then some (if negative then 0 - UInt64.ofNat n else UInt64.ofNat n) else none

/-- `tolower` on an ASCII character; all others map to themselves. -/
def tolower (c : UInt8) : UInt8 := if 0x41 ≤ c && c ≤ 0x5A then c + 0x20 else c

/-- `mapChar`. -/
def mapChar (c : UInt8) : UInt8 :=
  if 0x61 ≤ c && c ≤ 0x7A then 0x04 + (c - 0x61)
  else if c == 0x0A then 0x28
  else 0

/-- The usage of a key name; 0 if it has none. -/
def usageOfKey (key : List UInt8) : UInt8 :=
  if key = ascii ['E', 'N', 'T', 'E', 'R'] then 0x28
  else match key with
    | [] => 0
    -- only the first character of a name counts
    | c :: _ => mapChar (tolower c)

/-! ## The handler -/

/-- What the loop body decides about a datagram before it takes the lock. `skip` and `drop`
leave the loop body with `continue`, the others reach its end. -/
inductive UdpVerdict
  | skip
  | drop (dtMs : ℚ) (cmd key : List UInt8)
  | ignore
  | mark (usage : UInt8) (tNs : UInt64)
  | edge (down : Bool) (usage : UInt8) (dtMs : ℚ) (cmd key : List UInt8)

/-- What the loop body gets out of the tokens: `t_ns` as it was parsed, `cmd` and `key`. -/
def udpFields (s : List UInt8) : Option (UInt64 × List UInt8 × List UInt8) :=
  match tokenize s with
  | [] => none
  | tok₀ :: toks =>
    if ascii ['t', '='] <+: tok₀ then
      match toks with
      | [] => none
      -- a timestamp that does not parse counts as none
      | cmd :: rest => some ((stoull (tok₀.drop 2)).getD 0, cmd, rest.headD [])
    else some (0, tok₀, toks.headD [])

/-- The body behind the tokenizer: `tNs` is 0 if the datagram carries no usable
timestamp. -/
def udpCommand (args : Args) (now : UInt64) (tNs : UInt64) (cmd key : List UInt8) :
    UdpVerdict :=
  -- without a timestamp the edge has age 0
  let tNs := if tNs = 0 then now else tNs
  -- a timestamp that is ahead of the clock makes the difference wrap
  let dtMs := nsToMs (now - tNs)
  if 0 < args.deadlineMs ∧ (args.deadlineMs.toInt : ℚ) < dtMs then .drop dtMs cmd key
  else
    let usage := usageOfKey key
    if usage = 0 then .ignore
    else if cmd = ascii ['m', 'u', 'p'] then .mark usage tNs
    else if cmd = ascii ['d', 'o', 'w', 'n'] then .edge true usage dtMs cmd key
    else if cmd = ascii ['u', 'p'] then .edge false usage dtMs cmd key
    else .ignore

/-- The loop body up to the critical section. -/
def udpVerdict (args : Args) (now : UInt64) (s : List UInt8) : UdpVerdict :=
  match udpFields s with
  | none => .skip
  | some (tNs, cmd, key) => udpCommand args now tNs cmd key

/-- The size of the receive buffer; what a datagram has beyond it is cut off. -/
def bufSize : ℕ := 1024

/-- The critical section of an edge. -/
def applyUdpEdge (ord : IterOrder UInt8) (now : UInt64) (down : Bool) (usage : UInt8)
    (s : KeyState) : KeyState :=
  if down then
    { s.modifyMeta usage fun km =>
        { km with lastEdgeNs := now, pressed := true, stuckReported := false } with
      pressed := s.pressed.insert ord usage }
  else
    { s.modifyMeta usage fun km =>
        { km with
          lastEdgeNs := now, pressed := false, upMarkerNs := none, stuckReported := false } with
      pressed := s.pressed.erase usage }

/-- **Both handlers make one update**: the callback sets the modifiers, a datagram leaves them. -/
@[simp] lemma applyUdpEdge_eq (ord : IterOrder UInt8) (now : UInt64) (down : Bool)
    (usage : UInt8) (s : KeyState) :
    applyUdpEdge ord now down usage s = applyQuicEdge ord now s.modifiers down usage s := by
  cases down <;> rfl

/-- The handler of one datagram, up to the heartbeat. -/
def handleDatagram (args : Args) (ord : IterOrder UInt8) (now : UInt64)
    (datagram : List UInt8) (s : KeyState) : Outcome :=
  match udpVerdict args now (datagram.take bufSize) with
  | .skip => { state := s }
  | .drop dtMs cmd key => { state := s, log := [.drop dtMs cmd key] }
  | .ignore => { state := s }
  | .mark usage tNs =>
    { state := s.modifyMeta usage fun km => { km with upMarkerNs := some tNs } }
  | .edge down usage dtMs cmd key =>
    { state := applyUdpEdge ord now down usage s, log := [.lat dtMs cmd key], emit := true }

/-- Whether the loop body reaches its end, where the heartbeat is. -/
def reachesEnd (args : Args) (now : UInt64) (datagram : List UInt8) : Bool :=
  match udpVerdict args now (datagram.take bufSize) with
  | .skip => false
  | .drop .. => false
  | _ => true

end QuicKeys.Daemon
