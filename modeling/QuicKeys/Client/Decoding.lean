import QuicKeys.Client.Hybrid
import QuicKeys.Daemon.Handlers

/-!
# The daemon decodes what the client encodes

Round trips between the encoders of the client and the handlers of the daemon: the
datagrams of edges on the keys of the workloads, and the snapshots of any pressed set.
-/

namespace QuicKeys.Client

open Ascii Daemon

/-! ## Words -/

lemma bigEndian_packU32 (x : UInt32) : MachineInt.bigEndian (packU32 x) = x.toNat := by
  have hx := x.toNat_lt
  simp [MachineInt.bigEndian, packU32, Nat.shiftRight_eq_div_pow]
  omega

lemma bigEndian_packU64 (x : UInt64) : MachineInt.bigEndian (packU64 x) = x.toNat := by
  have hx := x.toNat_lt
  rw [packU64, MachineInt.bigEndian_append, bigEndian_packU32, bigEndian_packU32]
  simp [packU32, Nat.shiftRight_eq_div_pow]
  omega

/-- `be_u32` reads back what `struct.pack` writes. -/
lemma beU32_packU32 (x : UInt32) (l : List UInt8) : beU32 (packU32 x ++ l) = x := by
  rw [← UInt32.toNat_inj, ← bigEndian_packU32 x]
  exact MachineInt.toNat_or_shiftLeft _ _ _ _

/-! ## Edge datagrams -/

lemma utf8_of_all {cs : List Char} (h : cs.all (fun c => c.toNat < 128) = true) :
    utf8 cs = ascii cs :=
  utf8_eq_ascii fun c hc => of_decide_eq_true (List.all_eq_true.mp h c hc)

lemma utf8_cmd_name (cmd : Cmd) : utf8 cmd.name = ascii cmd.name := by
  cases cmd <;> exact utf8_of_all (by decide)

lemma utf8_key_name (k : Key) : utf8 k.name = ascii k.name := by
  cases k with
  | letter i =>
    apply utf8_of_all
    revert i
    decide
  | enter => exact utf8_of_all (by decide)

lemma utf8_toDigits (n : ℕ) : utf8 (Nat.toDigits 10 n) = decimal n := by
  apply utf8_eq_ascii
  intro c hc
  have := toNat_lt_of_isDigit (Nat.isDigit_of_mem_toDigits (by decide) (Nat.le_refl _) hc)
  omega

/-- The datagram of an edge, byte by byte. -/
lemma buildEdgeMsg_eq (cmd : Cmd) (key : List Char) (t : ℕ) :
    buildEdgeMsg cmd key t
      = (ascii ['t', '='] ++ decimal t) ++ 0x20 :: (ascii cmd.name ++ 0x20 :: utf8 key) := by
  rw [buildEdgeMsg, utf8_append, utf8_append, utf8_append, utf8_append, utf8_append,
    utf8_toDigits, utf8_cmd_name]
  simp only [List.append_assoc]
  rfl

lemma not_isSeparator_of_isDigit {b : UInt8} (h : isDigit b = true) : isSeparator b = false := by
  rw [Bool.eq_false_iff]
  intro hsep
  rcases eq_of_isSeparator hsep with rfl | rfl | rfl | rfl <;> exact absurd h (by decide)

lemma not_isSpace_of_isDigit {b : UInt8} (h : isDigit b = true) : isSpace b = false := by
  rw [Bool.eq_false_iff]
  intro hspace
  simp only [isSpace, isDigit, Bool.or_eq_true, Bool.and_eq_true, beq_iff_eq,
    decide_eq_true_eq] at hspace h
  rcases hspace with rfl | ⟨-, hle⟩
  · exact absurd h (by decide)
  · exact absurd (UInt8.le_trans h.1 hle) (by decide)

lemma not_isSeparator_of_all {w : List UInt8} (h : w.all (fun b => !isSeparator b) = true) :
    ∀ b ∈ w, isSeparator b = false := by
  intro b hb
  simpa using List.all_eq_true.mp h b hb

lemma not_isSeparator_cmd_name (cmd : Cmd) : ∀ b ∈ ascii cmd.name, isSeparator b = false :=
  not_isSeparator_of_all (by cases cmd <;> decide)

lemma not_isSeparator_key_name (k : Key) : ∀ b ∈ ascii k.name, isSeparator b = false := by
  apply not_isSeparator_of_all
  cases k with
  | letter i =>
    revert i
    decide
  | enter => decide

/-- The first field contains no separator. -/
lemma not_isSeparator_time (t : ℕ) :
    ∀ b ∈ ascii ['t', '='] ++ decimal t, isSeparator b = false := by
  intro b hb
  have hprefix : ∀ b ∈ ascii ['t', '='], isSeparator b = false :=
    not_isSeparator_of_all (by decide)
  rcases List.mem_append.mp hb with hb | hb
  · exact hprefix b hb
  · exact not_isSeparator_of_isDigit (isDigit_of_mem_decimal hb)

/-- **The tokens of the datagram** are its first two fields, and those of the key. -/
lemma tokenize_buildEdgeMsg (cmd : Cmd) (key : List Char) (t : ℕ) :
    tokenize (buildEdgeMsg cmd key t)
      = (ascii ['t', '='] ++ decimal t) :: ascii cmd.name :: tokenize (utf8 key) := by
  have hcmd : ascii cmd.name ≠ [] := by
    cases cmd <;> exact List.cons_ne_nil _ _
  rw [tokenize_eq_words, tokenize_eq_words, buildEdgeMsg_eq,
    Words.words_append_sep (not_isSeparator_time t) (by simp [ascii]) (by decide),
    Words.words_append_sep (not_isSeparator_cmd_name cmd) hcmd (by decide)]

/-- The name of a key is one token. -/
lemma tokenize_key_name (k : Key) : tokenize (utf8 k.name) = [ascii k.name] := by
  have hkey : ascii k.name ≠ [] := by
    cases k <;> exact List.cons_ne_nil _ _
  rw [utf8_key_name, tokenize_eq_words, Words.words_of_forall (not_isSeparator_key_name k) hkey]

/-- `stoull` reads back a 64-bit number. -/
lemma stoull_decimal (t : UInt64) : stoull (decimal t.toNat) = some t := by
  rcases List.exists_cons_of_ne_nil (decimal_ne_nil t.toNat) with ⟨d, ds, hds⟩
  have hd : isDigit d = true := isDigit_of_mem_decimal (by rw [hds]; exact List.mem_cons_self)
  have hall : ∀ b ∈ d :: ds, isDigit b = true := fun b hb => by
    rw [← hds] at hb
    exact isDigit_of_mem_decimal hb
  have hminus : (d == 0x2D) = false := by
    rw [beq_eq_false_iff_ne]
    intro heq
    subst heq
    exact absurd hd (by decide)
  have hplus : (d == 0x2B) = false := by
    rw [beq_eq_false_iff_ne]
    intro heq
    subst heq
    exact absurd hd (by decide)
  have hvalue := digitsValue_decimal t.toNat
  rw [hds] at hvalue ⊢
  unfold stoull
  rw [List.dropWhile_cons_of_neg (by simp [not_isSpace_of_isDigit hd])]
  have hsome (x : UInt8) : ((some d : Option UInt8) == some x) = (d == x) := rfl
  simp only [List.head?_cons, hsome, hminus, hplus, Bool.or_self,
    Bool.false_eq_true, if_false]
  rw [List.takeWhile_eq_self_iff.mpr hall, hvalue, if_pos t.toNat_lt, UInt64.ofNat_toNat]
  rfl

lemma usageOfKey_name (k : Key) : usageOfKey (ascii k.name) = k.usage := by
  cases k with
  | letter i =>
    revert i
    decide
  | enter => decide

lemma usage_ne_zero (k : Key) : k.usage ≠ 0 := by
  cases k with
  | letter i =>
    revert i
    decide
  | enter => decide

/-- The key of a workload is a keyboard usage. -/
lemma isKeyboardUsage_usage (k : Key) : isKeyboardUsage k.usage = true := by
  cases k with
  | letter i =>
    revert i
    decide
  | enter => decide

/-- The datagram of a short key fits into the receive buffer. -/
lemma take_bufSize_buildEdgeMsg (cmd : Cmd) {key : List Char} (hkey : (utf8 key).length ≤ 5)
    (t : UInt64) : (buildEdgeMsg cmd key t.toNat).take bufSize = buildEdgeMsg cmd key t.toNat := by
  apply List.take_of_length_le
  have htime : (decimal t.toNat).length ≤ 20 := by
    rw [decimal, ascii, List.length_map, Nat.length_toDigits_le_iff (by decide) (by decide)]
    exact t.toNat_lt.trans (by decide)
  have hcmd : (ascii cmd.name).length ≤ 4 := by
    cases cmd <;> decide
  rw [buildEdgeMsg_eq]
  simp only [List.length_append, List.length_cons, bufSize]
  have : (ascii ['t', '=']).length = 2 := rfl
  omega

lemma length_utf8_key_name (k : Key) : (utf8 k.name).length ≤ 5 := by
  rw [utf8_key_name]
  cases k <;> simp [ascii, Key.name]

/-- The daemon's reading of the clock is not past the deadline of a datagram stamped `t`. -/
def WithinDeadline (args : Args) (now t : UInt64) : Prop :=
  ¬(0 < args.deadlineMs
    ∧ (args.deadlineMs.toInt : ℚ) < nsToMs (now - if t = 0 then now else t))

instance (args : Args) (now t : UInt64) : Decidable (WithinDeadline args now t) :=
  inferInstanceAs (Decidable (¬_))

/-- Without a deadline every reading is. -/
lemma withinDeadline_of_le {args : Args} (hdl : args.deadlineMs ≤ 0) {now t : UInt64} :
    WithinDeadline args now t :=
  fun h => absurd h.1 (Int32.not_lt.mpr hdl)

/-- The datagram of an edge, when it is processed. -/
def edgeEvent (cmd : Cmd) (k : Key) (t now : UInt64) (ord : IterOrder UInt8) : Event where
  msg := .datagram (buildEdgeMsg cmd k.name t.toNat)
  now
  ord

/-- The loop body gets hold of the three fields. -/
lemma udpVerdict_buildEdgeMsg (args : Args) (now t : UInt64) (cmd : Cmd) {key : List Char}
    (hkey : (utf8 key).length ≤ 5) :
    udpVerdict args now ((buildEdgeMsg cmd key t.toNat).take bufSize)
      = udpCommand args now t (ascii cmd.name) ((tokenize (utf8 key)).headD []) := by
  rw [take_bufSize_buildEdgeMsg cmd hkey]
  have hdrop : (ascii ['t', '='] ++ decimal t.toNat).drop 2 = decimal t.toNat := rfl
  rw [udpVerdict, udpFields, tokenize_buildEdgeMsg]
  dsimp only
  rw [if_pos (List.prefix_append _ _), hdrop, stoull_decimal]
  rfl

/-- For a key of the workloads. -/
lemma udpVerdict_key_name (args : Args) (now t : UInt64) (cmd : Cmd) (k : Key) :
    udpVerdict args now ((buildEdgeMsg cmd k.name t.toNat).take bufSize)
      = udpCommand args now t (ascii cmd.name) (ascii k.name) := by
  rw [udpVerdict_buildEdgeMsg args now t cmd (length_utf8_key_name k), tokenize_key_name]
  rfl

section EdgeEffects

variable {args : Args} {now t : UInt64} (k : Key) (ord : IterOrder UInt8)

/-- **An edge within the deadline** presses or releases its key. -/
theorem effectOf_edge (h : WithinDeadline args now t) (down : Bool) :
    effectOf args (edgeEvent (edgeCmd down) k t now ord) = .edge none down k.usage := by
  unfold effectOf edgeEvent
  dsimp only
  rw [udpVerdict_key_name]
  unfold udpCommand
  dsimp only
  rw [if_neg h, usageOfKey_name, if_neg (usage_ne_zero k)]
  cases down <;> rfl

/-- An edge past the deadline is dropped. -/
lemma udpVerdict_edge_of_not (h : ¬WithinDeadline args now t) (down : Bool) :
    udpVerdict args now ((buildEdgeMsg (edgeCmd down) k.name t.toNat).take bufSize)
      = .drop (nsToMs (now - if t = 0 then now else t)) (ascii (edgeCmd down).name)
        (ascii k.name) := by
  rw [udpVerdict_key_name]
  unfold udpCommand
  dsimp only
  rw [if_pos (Classical.not_not.mp h)]

/-- A marker marks its key, or is dropped. -/
theorem effectOf_mup :
    (∃ tNs, effectOf args (edgeEvent .mup k t now ord) = .mark k.usage tNs)
      ∨ effectOf args (edgeEvent .mup k t now ord) = .none := by
  unfold effectOf edgeEvent
  dsimp only
  rw [udpVerdict_key_name]
  unfold udpCommand
  dsimp only
  by_cases h : WithinDeadline args now t
  · rw [if_neg h, usageOfKey_name, if_neg (usage_ne_zero k)]
    exact Or.inl ⟨_, rfl⟩
  · rw [if_pos (Classical.not_not.mp h)]
    exact Or.inr rfl

end EdgeEffects

/-! ## Snapshots -/

/-- A snapshot of the client's pressed set, when it is processed. -/
def snapshotEvent (a : SnapshotArgs) (pressed : UnorderedSet ℤ) (now : UInt64)
    (ord : IterOrder UInt8) : Event where
  msg := .snapshot (buildSnapshot a (bitmapFromPressed pressed))
  now
  ord

/-- The daemon reads the modifiers and the bitmap back. -/
lemma decodeSnapshot_buildSnapshot (ord : IterOrder UInt8) (a : SnapshotArgs)
    (pressed : UnorderedSet ℤ) :
    decodeSnapshot ord (buildSnapshot a (bitmapFromPressed pressed))
      = some (a.mods.toUInt8, newPressed ord (bitmapFromPressed pressed)) := by
  rcases buildSnapshot_eq a (bitmapFromPressed pressed) with ⟨hdr, hlen, heq⟩
  rw [heq, decodeSnapshot, if_neg (by simp [hlen]), snapMods_eq]
  congr 2
  · rw [List.getD_append_right _ _ _ _ (by omega), hlen]
    rfl
  · rw [List.drop_append, List.drop_eq_nil_of_le (by omega), hlen]
    rfl

/-- **A snapshot** makes the daemon's keys those of the client, as far as they are keyboard
usages. -/
theorem effectOf_snapshot (args : Args) (a : SnapshotArgs) (pressed : UnorderedSet ℤ)
    (now : UInt64) (ord : IterOrder UInt8) :
    effectOf args (snapshotEvent a pressed now ord)
      = .snapshot a.mods.toUInt8 (newPressed ord (bitmapFromPressed pressed)) := by
  unfold effectOf snapshotEvent
  dsimp only
  rw [decodeSnapshot_buildSnapshot]

lemma mem_newPressed_bitmapFromPressed {ord : IterOrder UInt8} {pressed : UnorderedSet ℤ}
    {u : UInt8} : u ∈ newPressed ord (bitmapFromPressed pressed)
      ↔ isKeyboardUsage u = true ∧ usageInt u ∈ pressed := by
  rw [mem_newPressed, bit_bitmapFromPressed, decide_eq_true_eq]

end QuicKeys.Client
