import QuicKeys.Client.Decoding

/-!
# Typing a text

`workload_events` turns a text into edges. The client keeps its pressed set from them and
announces it in snapshots; the daemon keeps its own from the datagrams. The two have
separate tables of keys, and they differ in three characters: the space, which the
tokenizer of the daemon swallows, and the Kelvin sign and the capital I with dot, which the
client takes to lower case.
-/

namespace QuicKeys.Client

open Ascii Daemon

/-! ## The events of a text -/

/-- `(delay_ms, cmd, key, is_marker)`. -/
structure ScriptEvent where
  delayMs : ℚ
  cmd : Cmd
  key : List Char
  isMarker : Bool

/-- `"ENTER" if ch == "\\n" else ch`. -/
def keyOfChar (ch : Char) : List Char := if ch = '\n' then ['E', 'N', 'T', 'E', 'R'] else [ch]

/-- What is appended for one character; the command `none` is `"noop"`. -/
def charEvents (keyDelayMs : ℚ) (ch : Char) : List (ℚ × Option Cmd × List Char × Bool) :=
  let key := keyOfChar ch
  [(0, some .down, key, false), (keyDelayMs, some .mup, key, true), (0, some .up, key, false),
    (keyDelayMs, none, [], false)]

/-- The loop body that folds the delay of a noop into the next event. -/
def foldNoop (acc : List ScriptEvent × ℚ) (e : ℚ × Option Cmd × List Char × Bool) :
    List ScriptEvent × ℚ :=
  match e with
  | (d, none, _, _) => (acc.1, acc.2 + d)
  | (d, some cmd, key, ism) => (acc.1 ++ [⟨d + acc.2, cmd, key, ism⟩], 0)

/-- `workload_events`. -/
def workloadEvents (text : List Char) (repeats : ℕ) (keyDelayMs : ℚ) : List ScriptEvent :=
  let events := (List.range repeats).flatMap fun _ => text.flatMap (charEvents keyDelayMs)
  (events.foldl foldNoop ([], 0)).1

/-- The events of characters, the first of which waits for `carry`. -/
def typed (keyDelayMs : ℚ) : ℚ → List Char → List ScriptEvent
  | _, [] => []
  | carry, ch :: chs =>
    ⟨carry, .down, keyOfChar ch, false⟩ :: ⟨keyDelayMs, .mup, keyOfChar ch, true⟩
      :: ⟨0, .up, keyOfChar ch, false⟩ :: typed keyDelayMs keyDelayMs chs

/-- All characters that are typed. -/
def repeated (text : List Char) (repeats : ℕ) : List Char :=
  (List.range repeats).flatMap fun _ => text

lemma foldl_foldNoop (keyDelayMs : ℚ) (chs : List Char) (folded : List ScriptEvent) (carry : ℚ) :
    ((chs.flatMap (charEvents keyDelayMs)).foldl foldNoop (folded, carry)).1
      = folded ++ typed keyDelayMs carry chs := by
  induction chs generalizing folded carry with
  | nil => exact (List.append_nil _).symm
  | cons ch chs ih =>
    rw [List.flatMap_cons, List.foldl_append]
    have hone : (charEvents keyDelayMs ch).foldl foldNoop (folded, carry)
        = (folded ++ [⟨carry, .down, keyOfChar ch, false⟩, ⟨keyDelayMs, .mup, keyOfChar ch, true⟩,
          ⟨0, .up, keyOfChar ch, false⟩], keyDelayMs) := by
      simp [charEvents, foldNoop]
    rw [hone, ih, typed, List.append_assoc]
    rfl

/-- **The events of a text**: every character is pressed, marked and released. -/
theorem workloadEvents_eq (text : List Char) (repeats : ℕ) (keyDelayMs : ℚ) :
    workloadEvents text repeats keyDelayMs = typed keyDelayMs 0 (repeated text repeats) := by
  rw [workloadEvents, repeated, ← List.flatMap_assoc]
  exact foldl_foldNoop _ _ _ _

lemma typed_append (keyDelayMs carry : ℚ) (l : List Char) (ch : Char) (r : List Char) :
    ∃ delay, typed keyDelayMs carry (l ++ ch :: r)
      = typed keyDelayMs carry l ++ typed keyDelayMs delay (ch :: r) := by
  induction l generalizing carry with
  | nil => exact ⟨carry, rfl⟩
  | cons c l ih =>
    rcases ih keyDelayMs with ⟨delay, hdelay⟩
    refine ⟨delay, ?_⟩
    rw [List.cons_append, typed, typed, hdelay]
    rfl

lemma key_of_mem_typed {keyDelayMs carry : ℚ} {chs : List Char} {e : ScriptEvent}
    (he : e ∈ typed keyDelayMs carry chs) : ∃ ch ∈ chs, e.key = keyOfChar ch := by
  induction chs generalizing carry with
  | nil => exact absurd he List.not_mem_nil
  | cons ch chs ih =>
    rw [typed] at he
    rcases List.mem_cons.mp he with rfl | he
    · exact ⟨ch, List.mem_cons_self, rfl⟩
    rcases List.mem_cons.mp he with rfl | he
    · exact ⟨ch, List.mem_cons_self, rfl⟩
    rcases List.mem_cons.mp he with rfl | he
    · exact ⟨ch, List.mem_cons_self, rfl⟩
    rcases ih he with ⟨ch', hmem, hkey⟩
    exact ⟨ch', List.mem_cons_of_mem _ hmem, hkey⟩

/-! ## Two tables of keys -/

/-- The usage the daemon finds for a key name in a datagram. -/
def heard (key : List Char) : UInt8 := usageOfKey ((tokenize (utf8 key)).headD [])

/-- The characters the two tables disagree on. -/
def Misnamed (ch : Char) : Prop := ch = ' ' ∨ ch.toNat = 0x212A ∨ ch.toNat = 0x130

/-- A name that starts with a byte above 127 has no usage. -/
lemma usageOfKey_of_le {b : UInt8} (h : 128 ≤ b.toNat) (bs : List UInt8) :
    usageOfKey (b :: bs) = 0 := by
  have hE : b :: bs ≠ ascii ['E', 'N', 'T', 'E', 'R'] := by
    intro heq
    have hb : b = 0x45 := (List.cons.inj heq).1
    rw [hb] at h
    exact absurd h (by decide)
  have hZ : ¬b ≤ 0x5A := by
    rw [UInt8.le_iff_toNat_le, show (0x5A : UInt8).toNat = 90 from rfl]
    omega
  have hz : ¬b ≤ 0x7A := by
    rw [UInt8.le_iff_toNat_le, show (0x7A : UInt8).toNat = 122 from rfl]
    omega
  have hn : b ≠ 0x0A := by
    intro heq
    rw [heq] at h
    exact absurd h (by decide)
  rw [usageOfKey, if_neg hE]
  simp [tolower, mapChar, hZ, hz, hn]

/-- The daemon maps the byte of an ASCII character. -/
lemma heard_of_lt {ch : Char} (h : ch.toNat < 128) (hn : ch ≠ '\n') :
    heard [ch] = mapChar (tolower (UInt8.ofNat ch.toNat)) := by
  have hbyte : utf8 [ch] = [UInt8.ofNat ch.toNat] :=
    utf8_eq_ascii fun c hc => by rwa [List.mem_singleton.mp hc]
  have hval : (UInt8.ofNat ch.toNat).toNat = ch.toNat := by
    rw [UInt8.toNat_ofNat']
    omega
  rw [heard, hbyte, tokenize_eq_words]
  cases hsep : isSeparator (UInt8.ofNat ch.toNat) with
  -- the key is lost between the tokens
  | true =>
    rw [Words.words_cons_sep hsep, Words.words_nil]
    rcases eq_of_isSeparator hsep with hb | hb | hb | hb
    · rw [hb]
      rfl
    · rw [hb] at hval
      refine absurd ?_ hn
      rw [← Char.ofNat_toNat ch, ← hval]
      rfl
    · rw [hb]
      rfl
    · rw [hb]
      rfl
  | false =>
    rw [Words.words_of_forall (fun a ha => by rwa [List.mem_singleton.mp ha])
      (List.cons_ne_nil _ _), List.headD_cons, usageOfKey, if_neg]
    intro heq
    exact absurd (congrArg List.length heq) (by simp [ascii])

/-- Any other character is unknown to the daemon. -/
lemma heard_of_le {ch : Char} (h : 128 ≤ ch.toNat) : heard [ch] = 0 := by
  have hbytes : utf8 [ch] = String.utf8EncodeChar ch := List.append_nil _
  have hle := le_of_mem_utf8EncodeChar h
  have hsep : ∀ b ∈ String.utf8EncodeChar ch, isSeparator b = false := by
    intro b hb
    rw [Bool.eq_false_iff]
    intro hsep
    have hb := hle b hb
    rcases eq_of_isSeparator hsep with rfl | rfl | rfl | rfl <;> exact absurd hb (by decide)
  rw [heard, hbytes, tokenize_eq_words, Words.words_of_forall hsep String.utf8EncodeChar_ne_nil,
    List.headD_cons]
  rcases List.exists_cons_of_ne_nil (String.utf8EncodeChar_ne_nil (c := ch)) with ⟨b, bs, hcons⟩
  rw [hcons] at hle ⊢
  exact usageOfKey_of_le (hle b List.mem_cons_self) bs

/-- The client finds the same usage for an ASCII character other than the space. -/
lemma usageForKey_of_lt {ch : Char} (h : ch.toNat < 128) (hn : ch ≠ '\n') (hs : ch ≠ ' ') :
    usageForKey [ch] = some (usageInt (mapChar (tolower (UInt8.ofNat ch.toNat)))) := by
  have hall : ∀ i : Fin 128, Char.ofNat i ≠ '\n' → Char.ofNat i ≠ ' ' →
      usageForKey [Char.ofNat i] = some (usageInt (mapChar (tolower (UInt8.ofNat i)))) := by
    decide
  have := hall ⟨ch.toNat, h⟩
  rw [Char.ofNat_toNat] at this
  exact this hn hs

lemma usageForKey_of_le {ch : Char} (h : 128 ≤ ch.toNat) (hok : ¬Misnamed ch) :
    usageForKey [ch] = some 0 := by
  have hz : 'z' < ch := by
    rw [Char.lt_def, UInt32.lt_iff_toNat_lt]
    exact Nat.lt_of_lt_of_le (by decide) h
  have hZ : ¬ch ≤ 'Z' := not_le.mpr (lt_trans (by decide) hz)
  have hlower : lower ch = [ch] := by
    rw [lower, if_neg (fun hcap => hZ hcap.2), if_neg fun hk => hok (.inr (.inl hk)),
      if_neg fun hi => hok (.inr (.inr hi))]
  have hspace : [ch] ≠ [' '] := fun heq => hok (.inl (List.singleton_inj.mp heq))
  have hlex : ¬[ch] ≤ ['z'] := by
    rw [not_le]
    exact List.Lex.rel hz
  rw [usageForKey, if_neg (by simp)]
  dsimp only
  rw [hlower, if_neg fun hle => hlex hle.2, if_neg hspace]

/-- **The tables agree** on all other characters. -/
theorem usageForKey_keyOfChar {ch : Char} (h : ¬Misnamed ch) :
    usageForKey (keyOfChar ch) = some (usageInt (heard (keyOfChar ch))) := by
  rw [keyOfChar]
  split
  · have henter : heard Key.enter.name = 0x28 := by
      rw [heard, tokenize_key_name, List.headD_cons, usageOfKey_name]
      rfl
    exact (congrArg (fun u => some (usageInt u)) henter).symm
  · rename_i hn
    by_cases hlt : ch.toNat < 128
    · rw [heard_of_lt hlt hn, usageForKey_of_lt hlt hn fun hs => h (.inl hs)]
    · rw [heard_of_le (Nat.not_lt.mp hlt), usageForKey_of_le (Nat.not_lt.mp hlt) h]
      rfl

/-- The daemon hears none of the three, and the client has a usage for each that it can lower. -/
theorem heard_of_misnamed {ch : Char} (h : Misnamed ch) :
    heard (keyOfChar ch) = 0 ∧ ∀ z ∈ usageForKey (keyOfChar ch), z ≠ 0 := by
  rcases h with rfl | h | h
  · refine ⟨heard_of_lt (by decide) (by decide), fun z hz => ?_⟩
    obtain rfl : (0x2C : ℤ) = z := Option.some.inj hz
    decide
  · obtain rfl : Char.ofNat 0x212A = ch := by rw [← h, Char.ofNat_toNat]
    refine ⟨heard_of_le (by decide), fun z hz => ?_⟩
    obtain rfl : (0x0E : ℤ) = z := Option.some.inj hz
    decide
  · obtain rfl : Char.ofNat 0x130 = ch := by rw [← h, Char.ofNat_toNat]
    -- two characters: `ord` raises
    have hraise : usageForKey (keyOfChar (Char.ofNat 0x130)) = none := rfl
    refine ⟨heard_of_le (by decide), fun z hz => ?_⟩
    rw [hraise] at hz
    cases hz

lemma keyOfChar_ne_nil (ch : Char) : keyOfChar ch ≠ [] := by
  rw [keyOfChar]
  split <;> exact List.cons_ne_nil _ _

lemma length_utf8_keyOfChar (ch : Char) : (utf8 (keyOfChar ch)).length ≤ 5 := by
  rw [keyOfChar]
  split
  · exact length_utf8_key_name .enter
  · have := ch.utf8Size_le_four
    simp [utf8]
    omega

/-! ## Both ends at work -/

/-- What the environment adds to an event: the client's timestamp, the daemon's clock, and the
hash tables of the two. -/
structure Moment where
  tNs : UInt64
  now : UInt64
  ord : IterOrder UInt8
  setOrd : IterOrder ℤ

/-- The datagram of an event, when it is processed. -/
def deliver (e : ScriptEvent) (m : Moment) : Event where
  msg := .datagram (buildEdgeMsg e.cmd e.key m.tNs.toNat)
  now := m.now
  ord := m.ord

/-- The daemon after the datagrams of the events. -/
def daemonAfter (args : Args) (moments : ℕ → Moment) (es : List ScriptEvent) : KeyState :=
  run args (es.mapIdx fun i e => deliver e (moments i))

/-- The client's pressed set after the events; `none` if `state_machine` raised. -/
def clientAfter (moments : ℕ → Moment) (es : List ScriptEvent) : Option (UnorderedSet ℤ) :=
  (es.mapIdx fun i e => (e, moments i)).foldlM
    (fun pressed (e, m) => stateMachine m.setOrd pressed e.cmd e.key) ∅

/-- The client still runs, and its set is that of the daemon. -/
def SameKeys (args : Args) (moments : ℕ → Moment) (es : List ScriptEvent) : Prop :=
  ∃ pressed ∈ clientAfter moments es,
    ∀ z : ℤ, z ∈ pressed ↔ ∃ u ∈ (daemonAfter args moments es).pressed, usageInt u = z

/-- Whether a key is pressed after a command on it. -/
def Cmd.leaves (cmd : Cmd) (was : Prop) : Prop :=
  match cmd with
  | .down => True
  | .mup => was
  | .up => False

section Steps

variable {args : Args} {moments : ℕ → Moment} {es : List ScriptEvent} {e : ScriptEvent}

lemma daemonAfter_concat :
    daemonAfter args moments (es ++ [e])
      = step args (daemonAfter args moments es) (deliver e (moments es.length)) := by
  rw [daemonAfter, List.mapIdx_concat, run_concat]
  rfl

lemma clientAfter_concat :
    clientAfter moments (es ++ [e])
      = (clientAfter moments es).bind fun pressed =>
        stateMachine (moments es.length).setOrd pressed e.cmd e.key := by
  rw [clientAfter, List.mapIdx_concat, List.foldlM_append]
  simp only [List.foldlM_cons, List.foldlM_nil, bind_pure]
  rfl

/-- **Step lemma of the client.** -/
lemma mem_stateMachine {ord : IterOrder ℤ} {pressed pressed' : UnorderedSet ℤ} {cmd : Cmd}
    {key : List Char} {z : ℤ} (hne : key ≠ []) (hkey : usageForKey key = some z)
    (h : stateMachine ord pressed cmd key = some pressed') (x : ℤ) :
    x ∈ pressed' ↔ if z ≠ 0 ∧ x = z then cmd.leaves (x ∈ pressed) else x ∈ pressed := by
  rw [stateMachine, if_neg hne, hkey, Option.bind_eq_bind, Option.bind_some] at h
  dsimp only at h
  by_cases hz : z = 0
  · rw [if_neg (by simp [hz]), if_neg (by simp [hz])] at h
    obtain rfl := Option.some.inj h
    rw [if_neg (by simp [hz])]
  cases cmd with
  | down =>
    rw [if_pos ⟨rfl, hz⟩] at h
    obtain rfl := Option.some.inj h
    rw [UnorderedSet.mem_insert]
    by_cases hx : x = z <;> simp [hx, hz, Cmd.leaves]
  | mup =>
    obtain rfl := Option.some.inj h
    by_cases hx : x = z <;> simp [hx, hz, Cmd.leaves]
  | up =>
    rw [if_neg (by simp), if_pos ⟨rfl, hz⟩] at h
    obtain rfl := Option.some.inj h
    rw [UnorderedSet.mem_erase]
    by_cases hx : x = z <;> simp [hx, hz, Cmd.leaves]

/-- The packet of an event does what its command says, unless it is late or of no key. -/
lemma effectOf_packet {m : Moment} (hlen : (utf8 e.key).length ≤ 5) :
    effectOf args (deliver e m)
      = if WithinDeadline args m.now m.tNs ∧ heard e.key ≠ 0 then
          match e.cmd with
          | .down => .edge none true (heard e.key)
          | .mup => .mark (heard e.key) (if m.tNs = 0 then m.now else m.tNs)
          | .up => .edge none false (heard e.key)
        else .none := by
  unfold effectOf deliver
  dsimp only
  rw [udpVerdict_buildEdgeMsg _ _ _ _ hlen]
  unfold udpCommand
  dsimp only
  rw [← heard]
  by_cases hin : WithinDeadline args m.now m.tNs ∧ heard e.key ≠ 0
  · rw [if_pos hin, if_neg hin.1, if_neg hin.2]
    cases e.cmd <;> rfl
  · rw [if_neg hin]
    by_cases htime : WithinDeadline args m.now m.tNs
    · rw [if_neg htime, if_pos (not_not.mp fun hu => hin ⟨htime, hu⟩)]
    · rw [if_pos (not_not.mp htime)]

/-- Without a deadline none is late. -/
lemma effectOf_deliver (hdl : args.deadlineMs ≤ 0) {m : Moment}
    (hlen : (utf8 e.key).length ≤ 5) :
    effectOf args (deliver e m)
      = if heard e.key = 0 then .none
        else match e.cmd with
          | .down => .edge none true (heard e.key)
          | .mup => .mark (heard e.key) (if m.tNs = 0 then m.now else m.tNs)
          | .up => .edge none false (heard e.key) := by
  rw [effectOf_packet hlen]
  have htime : WithinDeadline args m.now m.tNs := withinDeadline_of_le hdl
  by_cases hu : heard e.key = 0
  · simp only [htime, hu, true_and, ne_eq, not_true, if_true, if_false]
  · simp only [htime, hu, true_and, ne_eq, not_false_iff, if_true, if_false]

/-- **Step lemma of the daemon.** -/
lemma mem_step_deliver (hdl : args.deadlineMs ≤ 0) {s : KeyState} {m : Moment}
    (hlen : (utf8 e.key).length ≤ 5) (u : UInt8) :
    u ∈ (step args s (deliver e m)).pressed
      ↔ if heard e.key ≠ 0 ∧ u = heard e.key then e.cmd.leaves (u ∈ s.pressed)
        else u ∈ s.pressed := by
  rw [mem_pressed_step, writeOf, effectOf_deliver hdl hlen]
  by_cases hu : heard e.key = 0
  · rw [if_pos hu, if_neg (by simp [hu])]
    simp [Effect.write, held]
  · rw [if_neg hu]
    cases e.cmd <;> by_cases hx : u = heard e.key <;> simp [Effect.write, held, hx, hu, Cmd.leaves]

/-- What the last event made of the client's set, if it did not raise. -/
lemma exists_of_clientAfter_concat {pressed' : UnorderedSet ℤ} (hne : e.key ≠ [])
    (h : clientAfter moments (es ++ [e]) = some pressed') :
    ∃ pressed z, clientAfter moments es = some pressed ∧ usageForKey e.key = some z
      ∧ ∀ x, x ∈ pressed' ↔ if z ≠ 0 ∧ x = z then e.cmd.leaves (x ∈ pressed) else x ∈ pressed := by
  rw [clientAfter_concat] at h
  rcases Option.bind_eq_some_iff.mp h with ⟨pressed, hpressed, hstep⟩
  cases hkey : usageForKey e.key with
  | none =>
    rw [stateMachine, if_neg hne, hkey] at hstep
    cases hstep
  | some z => exact ⟨pressed, z, hpressed, rfl, mem_stateMachine hne hkey hstep⟩

/-- A key with a usage does not make the client raise. -/
lemma exists_stateMachine (ord : IterOrder ℤ) (pressed : UnorderedSet ℤ) (cmd : Cmd)
    {key : List Char} {z : ℤ} (hne : key ≠ []) (hkey : usageForKey key = some z) :
    ∃ pressed', stateMachine ord pressed cmd key = some pressed' := by
  rw [stateMachine, if_neg hne, hkey, Option.bind_eq_bind, Option.bind_some]
  dsimp only
  split
  · exact ⟨_, rfl⟩
  · split <;> exact ⟨_, rfl⟩

lemma usageInt_ne_zero_iff {u : UInt8} : usageInt u ≠ 0 ↔ u ≠ 0 := by
  rw [show (0 : ℤ) = usageInt 0 from rfl, Ne, usageInt_inj]

/-- The same change of one key keeps a set of integers and the set of usages alike. -/
lemma sameKeys_change {P : UInt8 → Prop} {S : ℤ → Prop}
    (hsame : ∀ z, S z ↔ ∃ u, P u ∧ usageInt u = z) (cmd : Cmd) (v : UInt8) (z : ℤ) :
    (if usageInt v ≠ 0 ∧ z = usageInt v then cmd.leaves (S z) else S z)
      ↔ ∃ u, (if v ≠ 0 ∧ u = v then cmd.leaves (P u) else P u) ∧ usageInt u = z := by
  by_cases hz : usageInt v ≠ 0 ∧ z = usageInt v
  -- the key that changes
  · rcases hz with ⟨hne0, rfl⟩
    have hold : S (usageInt v) ↔ P v := by
      rw [hsame]
      constructor
      · intro hmem
        rcases hmem with ⟨u, hu, huz⟩
        rwa [← usageInt_inj.mp huz]
      · intro hmem
        exact ⟨_, hmem, rfl⟩
    rw [if_pos ⟨hne0, rfl⟩, hold]
    constructor
    · intro hleaves
      exact ⟨_, by rwa [if_pos ⟨usageInt_ne_zero_iff.mp hne0, rfl⟩], rfl⟩
    · intro hmem
      rcases hmem with ⟨u, hu, huz⟩
      obtain rfl := usageInt_inj.mp huz
      rwa [if_pos ⟨usageInt_ne_zero_iff.mp hne0, rfl⟩] at hu
  -- the others
  · rw [if_neg hz, hsame]
    refine exists_congr fun u => and_congr_left fun huz => ?_
    rw [if_neg]
    intro hu
    refine hz ⟨usageInt_ne_zero_iff.mpr hu.1, ?_⟩
    rw [← huz, hu.2]

/-- **Step lemma.** An event on a key the tables agree on keeps the sets the same. -/
lemma sameKeys_concat (hdl : args.deadlineMs ≤ 0) (h : SameKeys args moments es) {ch : Char}
    (hkey : e.key = keyOfChar ch) (hok : ¬Misnamed ch) : SameKeys args moments (es ++ [e]) := by
  rcases h with ⟨pressed, hpressed, hsame⟩
  have hne : e.key ≠ [] := by
    rw [hkey]
    exact keyOfChar_ne_nil ch
  have hlen : (utf8 e.key).length ≤ 5 := by
    rw [hkey]
    exact length_utf8_keyOfChar ch
  have husage : usageForKey e.key = some (usageInt (heard e.key)) := by
    rw [hkey]
    exact usageForKey_keyOfChar hok
  rcases exists_stateMachine (moments es.length).setOrd pressed e.cmd hne husage with
    ⟨pressed', hstep⟩
  refine ⟨pressed', ?_, fun z => ?_⟩
  · rw [clientAfter_concat, hpressed]
    exact hstep
  · rw [mem_stateMachine hne husage hstep, daemonAfter_concat]
    simp only [mem_step_deliver hdl hlen]
    exact sameKeys_change hsame e.cmd (heard e.key) z

/-- Between two characters nothing is pressed. -/
lemma clientAfter_typed {keyDelayMs carry : ℚ} {chs : List Char} {pressed : UnorderedSet ℤ}
    (h : clientAfter moments (typed keyDelayMs carry chs) = some pressed) (z : ℤ) :
    z ∉ pressed := by
  induction chs using List.reverseRecOn generalizing pressed with
  | nil =>
    obtain rfl : (∅ : UnorderedSet ℤ) = pressed := Option.some.inj h
    exact UnorderedSet.not_mem_empty z
  | append_singleton chs ch ih =>
    rcases typed_append keyDelayMs carry chs ch [] with ⟨delay, hdelay⟩
    have hsplit : typed keyDelayMs carry (chs ++ [ch])
        = typed keyDelayMs carry chs ++ [⟨delay, .down, keyOfChar ch, false⟩]
          ++ [⟨keyDelayMs, .mup, keyOfChar ch, true⟩] ++ [⟨0, .up, keyOfChar ch, false⟩] := by
      rw [hdelay, typed, typed, List.append_assoc, List.append_assoc]
      rfl
    have hne := keyOfChar_ne_nil ch
    rw [hsplit] at h
    rcases exists_of_clientAfter_concat hne h with ⟨pressed₂, z₂, h₂, hz₂, hup⟩
    rcases exists_of_clientAfter_concat hne h₂ with ⟨pressed₁, z₁, h₁, hz₁, hmup⟩
    rcases exists_of_clientAfter_concat hne h₁ with ⟨pressed₀, z₀, h₀, hz₀, hdown⟩
    obtain rfl : z₂ = z₁ := Option.some.inj (hz₂.symm.trans hz₁)
    obtain rfl : z₂ = z₀ := Option.some.inj (hz₂.symm.trans hz₀)
    rw [hup, hmup, hdown]
    by_cases hz : z₂ ≠ 0 ∧ z = z₂
    · rw [if_pos hz]
      exact id
    · rw [if_neg hz, if_neg hz, if_neg hz]
      exact ih h₀

end Steps

/-! ## Every prefix of a script -/

section Prefixes

variable {args : Args} (hdl : args.deadlineMs ≤ 0) {moments : ℕ → Moment} {keyDelayMs : ℚ}
  {chs : List Char}

include hdl

/-- While a misnamed key is held down, only the client has it. -/
lemma not_misnamed_of_sameKeys
    (h : ∀ pre, pre <+: typed keyDelayMs 0 chs → SameKeys args moments pre) :
    ∀ ch ∈ chs, ¬Misnamed ch := by
  intro ch hch hmis
  rcases List.append_of_mem hch with ⟨l, r, rfl⟩
  rcases typed_append keyDelayMs 0 l ch r with ⟨delay, hdelay⟩
  rw [hdelay] at h
  rcases heard_of_misnamed hmis with ⟨hheard, hnz⟩
  -- before the key is pressed, nothing is
  rcases h _ (List.prefix_append _ _) with ⟨pressed, hpressed, hsame⟩
  have hidle : ∀ u, u ∉ (daemonAfter args moments (typed keyDelayMs 0 l)).pressed :=
    fun u hu => clientAfter_typed hpressed _ ((hsame _).mpr ⟨u, hu, rfl⟩)
  -- the daemon does not hear it
  rcases h (typed keyDelayMs 0 l ++ [⟨delay, .down, keyOfChar ch, false⟩])
    ⟨_, by rw [List.append_assoc]; rfl⟩ with ⟨pressed', hpressed', hsame'⟩
  rcases exists_of_clientAfter_concat (keyOfChar_ne_nil ch) hpressed' with ⟨_, z, -, hz, hmem⟩
  have hzmem : z ∈ pressed' := (hmem z).mpr (by rw [if_pos ⟨hnz z hz, rfl⟩]; trivial)
  rcases (hsame' z).mp hzmem with ⟨u, hu, -⟩
  rw [daemonAfter_concat, mem_step_deliver hdl (length_utf8_keyOfChar ch),
    if_neg fun hne => hne.1 hheard] at hu
  exact hidle u hu

/-- **Run lemma.** Without one, the sets stay the same. -/
lemma sameKeys_of_not_misnamed (hok : ∀ ch ∈ chs, ¬Misnamed ch) {pre : List ScriptEvent}
    (hpre : pre <+: typed keyDelayMs 0 chs) : SameKeys args moments pre := by
  induction pre using List.reverseRecOn with
  | nil => exact ⟨∅, rfl, fun z => by simp [daemonAfter, run]⟩
  | append_singleton pre e ih =>
    have hmem : e ∈ typed keyDelayMs 0 chs :=
      hpre.subset (List.mem_append_right _ (List.mem_singleton_self e))
    rcases key_of_mem_typed hmem with ⟨ch, hch, hkey⟩
    exact sameKeys_concat hdl (ih ((List.prefix_append _ _).trans hpre)) hkey (hok ch hch)

end Prefixes

lemma mem_repeated {text : List Char} {repeats : ℕ} {ch : Char} :
    ch ∈ repeated text repeats ↔ repeats ≠ 0 ∧ ch ∈ text := by
  rw [repeated, List.mem_flatMap]
  constructor
  · intro h
    rcases h with ⟨i, hi, hch⟩
    exact ⟨Nat.ne_zero_of_lt (List.mem_range.mp hi), hch⟩
  · intro h
    exact ⟨0, List.mem_range.mpr (Nat.pos_of_ne_zero h.1), h.2⟩

/-- **The two ends name the same keys** after every prefix of the events of a text iff nothing
is typed, or none of the characters is one the tables disagree on. -/
theorem sameKeys_iff {args : Args} (hdl : args.deadlineMs ≤ 0) (moments : ℕ → Moment)
    (text : List Char) (repeats : ℕ) (keyDelayMs : ℚ) :
    (∀ pre, pre <+: workloadEvents text repeats keyDelayMs → SameKeys args moments pre)
      ↔ repeats = 0 ∨ ∀ ch ∈ text, ¬Misnamed ch := by
  rw [workloadEvents_eq]
  constructor
  · intro h
    by_cases hzero : repeats = 0
    · exact Or.inl hzero
    · exact Or.inr fun ch hch =>
        not_misnamed_of_sameKeys hdl h ch (mem_repeated.mpr ⟨hzero, hch⟩)
  · intro h pre hpre
    refine sameKeys_of_not_misnamed hdl (fun ch hch => ?_) hpre
    rcases mem_repeated.mp hch with ⟨hne, htext⟩
    exact h.resolve_left hne ch htext

/-! ## A line and a space -/

/-- Nothing changes between the events. -/
def still : ℕ → Moment := fun _ => ⟨1, 1, IterOrder.front UInt8, IterOrder.front ℤ⟩

/-- The sets are the same when a line has been typed twice. -/
theorem sameKeys_iff_line :
    SameKeys { deadlineMs := 0 } still (workloadEvents ['a', 'P', '1', '\n'] 2 10) := by
  refine (sameKeys_iff (by decide) still _ 2 10).mpr (Or.inr fun ch hch => ?_) _ List.prefix_rfl
  have hall : ['a', 'P', '1', '\n'].all (fun ch =>
    ch != ' ' && ch.toNat != 0x212A && ch.toNat != 0x130) = true := by decide
  have hok := List.all_eq_true.mp hall ch hch
  simp only [Bool.and_eq_true, bne_iff_ne] at hok
  intro hmis
  rcases hmis with h | h | h
  · exact hok.1.1 h
  · exact hok.1.2 h
  · exact hok.2 h

/-- They do not while the space is. -/
theorem not_sameKeys_space :
    ¬∀ pre, pre <+: workloadEvents [' '] 1 10 → SameKeys { deadlineMs := 0 } still pre := by
  intro h
  rw [workloadEvents_eq] at h
  exact not_misnamed_of_sameKeys (by decide) h ' ' (mem_repeated.mpr ⟨by decide, by decide⟩)
    (Or.inl rfl)

end QuicKeys.Client
