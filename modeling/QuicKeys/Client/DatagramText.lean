import QuicKeys.Client.Decoding

/-!
# Datagrams with any white space, and other datagrams

The receive loop recovers the fields of `build_edge_msg` with whatever separators stand
around them, for every key that contains none. A datagram whose tokens do not name a command
and a key changes nothing.
-/

namespace QuicKeys.Client

open Ascii Daemon

/-! ## The fields -/

/-- The fields of `build_edge_msg` with white space around them. -/
structure Spaced where
  before : List UInt8
  afterTime : List UInt8
  afterCmd : List UInt8
  after : List UInt8

/-- The white space consists of separators, and there is some between the fields. -/
structure Spaced.Separates (w : Spaced) : Prop where
  before : ∀ b ∈ w.before, isSeparator b = true
  afterTime : ∀ b ∈ w.afterTime, isSeparator b = true
  afterCmd : ∀ b ∈ w.afterCmd, isSeparator b = true
  after : ∀ b ∈ w.after, isSeparator b = true
  afterTime_ne_nil : w.afterTime ≠ []
  afterCmd_ne_nil : w.afterCmd ≠ []

/-- The datagram. -/
def Spaced.datagram (w : Spaced) (cmd : Cmd) (key : List UInt8) (t : ℕ) : List UInt8 :=
  w.before ++ ((ascii ['t', '='] ++ decimal t)
    ++ (w.afterTime ++ (ascii cmd.name ++ (w.afterCmd ++ (key ++ w.after)))))

/-- **The tokens** are the fields. -/
lemma tokenize_datagram {w : Spaced} (hw : w.Separates) (cmd : Cmd) {key : List UInt8}
    (hkey : ∀ b ∈ key, isSeparator b = false) (hne : key ≠ []) (t : ℕ) :
    tokenize (w.datagram cmd key t)
      = [ascii ['t', '='] ++ decimal t, ascii cmd.name, key] := by
  have hcmd : ascii cmd.name ≠ [] := by
    cases cmd <;> exact List.cons_ne_nil _ _
  rw [tokenize_eq_words, Spaced.datagram, Words.words_append_left hw.before,
    Words.words_append_seps (not_isSeparator_time t) (by simp [ascii]) hw.afterTime
      hw.afterTime_ne_nil,
    Words.words_append_seps (not_isSeparator_cmd_name cmd) hcmd hw.afterCmd hw.afterCmd_ne_nil,
    Words.words_append_right hkey hne hw.after]

/-- **The loop body recovers the fields.** -/
lemma udpFields_datagram {w : Spaced} (hw : w.Separates) (cmd : Cmd) {key : List UInt8}
    (hkey : ∀ b ∈ key, isSeparator b = false) (hne : key ≠ []) (t : UInt64) :
    udpFields (w.datagram cmd key t.toNat) = some (t, ascii cmd.name, key) := by
  rw [udpFields, tokenize_datagram hw cmd hkey hne]
  dsimp only
  have hdrop : (ascii ['t', '='] ++ decimal t.toNat).drop 2 = decimal t.toNat := rfl
  rw [if_pos (List.prefix_append _ _), hdrop, stoull_decimal]
  rfl

/-! ## Datagrams that name no edge -/

/-- An ASCII letter. -/
def isLetter (c : UInt8) : Bool := (0x41 ≤ c && c ≤ 0x5A) || (0x61 ≤ c && c ≤ 0x7A)

/-- A key that a command can be about: `ENTER`, or a name that starts with a letter. -/
def NamesKey (key : List UInt8) : Prop :=
  key = ascii ['E', 'N', 'T', 'E', 'R'] ∨ ∃ c ∈ key.head?, isLetter c = true

/-- The tokens behind a time stamp, if there is one. -/
def dropTime : List (List UInt8) → List (List UInt8)
  | [] => []
  | tok :: toks => if ascii ['t', '='] <+: tok then toks else tok :: toks

/-- The tokens begin with a command and a key. -/
def NamesEdge (toks : List (List UInt8)) : Prop :=
  ∃ (cmd : Cmd) (key : List UInt8) (rest : List (List UInt8)),
    dropTime toks = ascii cmd.name :: key :: rest ∧ NamesKey key

lemma isLetter_of_tolower {c : UInt8} (h : 0x61 ≤ tolower c ∧ tolower c ≤ 0x7A) :
    isLetter c = true := by
  rw [isLetter, Bool.or_eq_true, Bool.and_eq_true, Bool.and_eq_true]
  simp only [decide_eq_true_eq]
  unfold tolower at h
  split at h
  · rename_i hcap
    rw [Bool.and_eq_true, decide_eq_true_eq, decide_eq_true_eq] at hcap
    exact Or.inl hcap
  · exact Or.inr h

lemma eq_newline_of_tolower {c : UInt8} (h : tolower c = 0x0A) : c = 0x0A := by
  unfold tolower at h
  split at h
  · rename_i hcap
    rw [Bool.and_eq_true, decide_eq_true_eq, decide_eq_true_eq, UInt8.le_iff_toNat_le,
      UInt8.le_iff_toNat_le] at hcap
    have hlow : 65 ≤ c.toNat := hcap.1
    have hhigh : c.toNat ≤ 90 := hcap.2
    have hval := congrArg UInt8.toNat h
    rw [UInt8.toNat_add] at hval
    have h20 : (0x20 : UInt8).toNat = 32 := rfl
    have h0A : (0x0A : UInt8).toNat = 10 := rfl
    omega
  · exact h

/-- A name without separators that has a usage names a key. -/
lemma namesKey_of_usage {key : List UInt8} (hkey : ∀ b ∈ key, isSeparator b = false)
    (h : usageOfKey key ≠ 0) : NamesKey key := by
  unfold usageOfKey at h
  split at h
  · rename_i henter
    exact Or.inl henter
  · cases key with
    | nil => exact absurd rfl h
    | cons c key =>
      refine Or.inr ⟨c, rfl, ?_⟩
      dsimp only at h
      unfold mapChar at h
      split at h
      · rename_i hc
        rw [Bool.and_eq_true, decide_eq_true_eq, decide_eq_true_eq] at hc
        exact isLetter_of_tolower hc
      · split at h
        -- a newline would have separated
        · rename_i hc
          rw [eq_newline_of_tolower (beq_iff_eq.mp hc)] at hkey
          exact absurd (hkey 0x0A List.mem_cons_self) (by decide)
        · exact absurd rfl h

/-- The verdict leads to a critical section. -/
def Acts : UdpVerdict → Prop
  | .mark .. => True
  | .edge .. => True
  | _ => False

/-- Only a command about a key with a usage acts. -/
lemma usage_of_acts {args : Args} {now tNs : UInt64} {cmd key : List UInt8}
    (h : Acts (udpCommand args now tNs cmd key)) :
    usageOfKey key ≠ 0 ∧ ∃ c : Cmd, cmd = ascii c.name := by
  unfold udpCommand at h
  generalize (if tNs = 0 then now else tNs) = t at h
  dsimp only at h
  split at h
  · exact False.elim h
  split at h
  · exact False.elim h
  rename_i husage
  refine ⟨husage, ?_⟩
  split at h
  · rename_i hmup
    exact ⟨.mup, hmup⟩
  split at h
  · rename_i hdown
    exact ⟨.down, hdown⟩
  split at h
  · rename_i hup
    exact ⟨.up, hup⟩
  · exact False.elim h

/-- The command and the key are the first two tokens behind the time stamp. -/
lemma dropTime_of_udpFields {s : List UInt8} {tNs : UInt64} {cmd key : List UInt8}
    (h : udpFields s = some (tNs, cmd, key)) :
    ∃ rest, dropTime (tokenize s) = cmd :: rest ∧ key = rest.headD [] := by
  unfold udpFields at h
  cases htok : tokenize s with
  | nil =>
    rw [htok] at h
    cases h
  | cons tok₀ toks =>
    rw [htok] at h
    dsimp only at h
    rw [dropTime]
    split at h
    · rename_i ht
      rw [if_pos ht]
      cases toks with
      | nil => cases h
      | cons cmd' rest =>
        cases h
        exact ⟨rest, rfl, rfl⟩
    · rename_i ht
      rw [if_neg ht]
      cases h
      exact ⟨toks, rfl, rfl⟩

lemma mem_of_mem_dropTime {toks : List (List UInt8)} {tok : List UInt8}
    (h : tok ∈ dropTime toks) : tok ∈ toks := by
  cases toks with
  | nil => exact h
  | cons tok₀ toks =>
    rw [dropTime] at h
    split at h
    · exact List.mem_cons_of_mem _ h
    · exact h

/-- **A datagram that acts** names an edge. -/
lemma namesEdge_of_acts {args : Args} {now : UInt64} {s : List UInt8}
    (h : Acts (udpVerdict args now s)) : NamesEdge (tokenize s) := by
  rw [udpVerdict] at h
  cases hfields : udpFields s with
  | none =>
    rw [hfields] at h
    exact False.elim h
  | some fields =>
    rcases fields with ⟨tNs, cmd, key⟩
    rw [hfields] at h
    rcases usage_of_acts h with ⟨husage, c, rfl⟩
    rcases dropTime_of_udpFields hfields with ⟨rest, hdrop, rfl⟩
    cases rest with
    | nil => exact absurd rfl husage
    | cons key rest =>
      refine ⟨c, key, rest, hdrop, namesKey_of_usage (fun b hb => ?_) husage⟩
      have hmem : key ∈ tokenize s := by
        apply mem_of_mem_dropTime
        rw [hdrop]
        simp
      rw [tokenize_eq_words] at hmem
      exact Words.not_sep_of_mem_words hmem b hb

/-- A verdict that does not act leaves the state as it is. -/
lemma handleDatagram_of_not_acts {args : Args} {ord : IterOrder UInt8} {now : UInt64}
    {datagram : List UInt8} {s : KeyState}
    (h : ¬Acts (udpVerdict args now (datagram.take bufSize))) :
    (handleDatagram args ord now datagram s).state = s
      ∧ (handleDatagram args ord now datagram s).emit = false := by
  unfold handleDatagram
  cases hv : udpVerdict args now (datagram.take bufSize) with
  | skip => exact ⟨rfl, rfl⟩
  | drop dtMs cmd key => exact ⟨rfl, rfl⟩
  | ignore => exact ⟨rfl, rfl⟩
  | mark usage tNs =>
    rw [hv] at h
    exact absurd trivial h
  | edge down usage dtMs cmd key =>
    rw [hv] at h
    exact absurd trivial h

/-! ## All datagrams -/

/-- **Datagrams are decoded.** The loop body recovers the time stamp, the command and the key
of a message of the client, whatever white space stands around them and whatever the key is
made of, and goes on with them; the scan of any datagram ends with its words, and one whose
words name no edge changes nothing and sends nothing. -/
theorem datagramDecoding :
    (∀ (w : Spaced) (cmd : Cmd) (key : List UInt8) (t : UInt64), w.Separates →
        (∀ b ∈ key, isSeparator b = false) → key ≠ [] → 1 ≤ t →
        (w.datagram cmd key t.toNat).length ≤ bufSize →
        udpFields ((w.datagram cmd key t.toNat).take bufSize) = some (t, ascii cmd.name, key)
          ∧ ∀ args now, udpVerdict args now ((w.datagram cmd key t.toNat).take bufSize)
            = udpCommand args now t (ascii cmd.name) key)
      ∧ ∀ datagram : List UInt8, datagram.length ≤ bufSize →
        tokenize (datagram.take bufSize) = Words.words isSeparator datagram
          ∧ (¬NamesEdge (Words.words isSeparator datagram) → ∀ args ord now s,
            (handleDatagram args ord now datagram s).state = s
              ∧ (handleDatagram args ord now datagram s).emit = false) := by
  constructor
  · intro w cmd key t hw hkey hne _ hlen
    have hfields := udpFields_datagram hw cmd hkey hne t
    rw [List.take_of_length_le hlen]
    refine ⟨hfields, fun args now => ?_⟩
    rw [udpVerdict, hfields]
  · intro datagram hlen
    have hscan : tokenize (datagram.take bufSize) = Words.words isSeparator datagram := by
      rw [List.take_of_length_le hlen, tokenize_eq_words]
    refine ⟨hscan, fun hnot args ord now s => handleDatagram_of_not_acts fun hacts => ?_⟩
    have hnames := namesEdge_of_acts hacts
    rw [hscan] at hnames
    exact hnot hnames

/-- Tabs and newlines. -/
def tabs : Spaced where
  before := [0x0A, 0x20]
  afterTime := [0x09]
  afterCmd := [0x20, 0x0D]
  after := [0x0A]

/-- Around a key of two bytes that are no text. -/
theorem datagramDecoding_tabs :
    udpFields ((tabs.datagram .mup [0x80, 0x00] 7).take bufSize)
      = some (7, ascii ['m', 'u', 'p'], [0x80, 0x00]) := by
  have hall {l : List UInt8} (h : l.all isSeparator = true) : ∀ b ∈ l, isSeparator b = true :=
    List.all_eq_true.mp h
  have htabs : tabs.Separates :=
    ⟨hall rfl, hall rfl, hall rfl, hall rfl, List.cons_ne_nil _ _, List.cons_ne_nil _ _⟩
  exact (datagramDecoding.1 tabs .mup [0x80, 0x00] 7 htabs
    (not_isSeparator_of_all (by decide)) (List.cons_ne_nil _ _) (by decide) (by decide)).1

end QuicKeys.Client
