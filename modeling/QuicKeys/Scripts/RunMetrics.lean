import Mathlib.Data.Finset.Card
import Mathlib.Data.List.Perm.Subperm
import QuicKeys.Scripts.RunLog

/-!
# The numbers of a run

What `run_case` makes of the log of a run of the daemon, with the messages of the daemon about
itself anywhere between the lines. A line is written in one piece here. The numbers are
those of the run: every latency is an accepted edge, no healing is counted without a keyup
marker, and without snapshots nothing heals and the watchdog never fires.
-/

namespace QuicKeys.Scripts

open Ascii Daemon

/-! ## The numbers -/

/-- `stuck_events` -/
def stuckEvents (log : List UInt8) : ℕ :=
  (parseLog log).heals.countP (fun h => decide (300 < h)) + (parseWatchdogKeys log).card
    + (parseStuckKeys log).card

/-- `stuck_pct` -/
def stuckPct (log : List UInt8) (totalMarkers : ℕ) : ℚ :=
  min 100 (100 * stuckEvents log / max totalMarkers 1)

/-- A rate, whatever is in the log. -/
lemma stuckPct_mem (log : List UInt8) (totalMarkers : ℕ) :
    0 ≤ stuckPct log totalMarkers ∧ stuckPct log totalMarkers ≤ 100 :=
  ⟨le_min (by norm_num) (by positivity), min_le_left _ _⟩

/-! ## Runs and their logs -/

/-- The line of a handler. -/
def LogEntry.handlerLine : LogEntry → Option LogLine
  | .line l => some l
  | .notice _ => none

/-- A byte of ASCII that neither starts a tag nor ends a line inside a token. -/
def TameByte (b : UInt8) : Prop :=
  b.toNat < 128 ∧ b ≠ 0x5B ∧ b ≠ 0x0B ∧ b ≠ 0x0C ∧ b ≠ 0x1C ∧ b ≠ 0x1D ∧ b ≠ 0x1E

/-- The log of a run on datagrams of such bytes: whole lines, in the order of the handlers. -/
structure LogOfRun (args : Args) (es : List Event) (entries : List LogEntry) : Prop where
  tame : ∀ e ∈ es, ∀ data, e.msg = .datagram data → ∀ b ∈ data, TameByte b
  lines : entries.filterMap LogEntry.handlerLine = logOf args {} es
  notices : ∀ text, .notice text ∈ entries → (LogEntry.notice text).Legible

/-- An edge that is accepted. -/
def isEdge (args : Args) (e : Event) : Bool :=
  match effectOf args e with
  | .edge .. => true
  | _ => false

/-- The key of a keyup marker. -/
def markOf (args : Args) (e : Event) : Option UInt8 :=
  match effectOf args e with
  | .mark usage _ => some usage
  | _ => none

/-- The key of a `[heal]` line. -/
def healOf : LogLine → Option UInt8
  | .heal key _ => some key
  | _ => none

/-! ## The lines of a run can be read -/

section Legible

variable {args : Args} {s : KeyState} {e : Event} {es : List Event} {data w : List UInt8}

/-- The character of an ASCII byte. -/
lemma toNat_ofNat_byte {b : UInt8} (hb : b.toNat < 128) : (Char.ofNat b.toNat).toNat = b.toNat := by
  have hvalid : b.toNat.isValidChar := Or.inl (by omega)
  rw [Char.ofNat, dif_pos hvalid]
  rfl

/-- ASCII bytes are read one by one. -/
lemma readText_of_lt (h : ∀ b ∈ w, b.toNat < 128) :
    readText w = w.map fun b => Char.ofNat b.toNat := by
  have hascii : ascii (w.map fun b => Char.ofNat b.toNat) = w := by
    rw [ascii, List.map_map]
    refine (List.map_congr_left fun b hb => ?_).trans (List.map_id w)
    show UInt8.ofNat (Char.ofNat b.toNat).toNat = b
    rw [toNat_ofNat_byte (h b hb), UInt8.ofNat_toNat]
  have hlt : ∀ c ∈ w.map fun b => Char.ofNat b.toNat, c.toNat < 128 := by
    intro c hc
    rcases List.mem_map.mp hc with ⟨b, hb, rfl⟩
    rw [toNat_ofNat_byte (h b hb)]
    exact h b hb
  conv_lhs => rw [← hascii, ← List.append_nil (ascii _)]
  rw [readText_ascii_append hlt, readText, List.append_nil]

/-- A token of tame bytes is tame. -/
lemma tame_of_token (hdata : ∀ b ∈ data, TameByte b) (hw : w ∈ tokenize data) :
    Tame (readText w) := by
  rw [tokenize_eq_words] at hw
  have hmem := Words.mem_of_mem_words hw
  have hsep := Words.not_sep_of_mem_words hw
  rw [readText_of_lt fun b hb => (hdata b (hmem b hb)).1]
  intro c hc
  rcases List.mem_map.mp hc with ⟨b, hb, rfl⟩
  rcases hdata b (hmem b hb) with ⟨hlt, h5B, h0B, h0C, h1C, h1D, h1E⟩
  have hnat (n : ℕ) (hn : n < 128) (hne : b ≠ UInt8.ofNat n) : b.toNat ≠ n := by
    rintro rfl
    exact hne UInt8.ofNat_toNat.symm
  have hseparator := hsep b hb
  simp only [isSeparator, Bool.or_eq_false_iff, beq_eq_false_iff_ne] at hseparator
  constructor
  · simp only [isLineBoundary, toNat_ofNat_byte hlt, List.contains_eq_mem, List.mem_cons,
      List.not_mem_nil, or_false, decide_eq_false_iff_not, not_or]
    exact ⟨hnat _ (by decide) hseparator.1.1.2, hnat _ (by decide) h0B, hnat _ (by decide) h0C,
      hnat _ (by decide) hseparator.1.2, hnat _ (by decide) h1C, hnat _ (by decide) h1D,
      hnat _ (by decide) h1E, by omega, by omega, by omega⟩
  · intro hbracket
    have hval := congrArg Char.toNat hbracket
    rw [toNat_ofNat_byte hlt] at hval
    exact hnat _ (by decide) h5B hval

/-- The first tokens of a datagram. -/
lemma tokens_of_udpFields {tNs : UInt64} {cmd key : List UInt8}
    (h : udpFields data = some (tNs, cmd, key)) :
    cmd ∈ tokenize data ∧ (key = [] ∨ key ∈ tokenize data) := by
  have hhead (toks : List (List UInt8)) : toks.headD [] = [] ∨ toks.headD [] ∈ toks := by
    cases toks with
    | nil => exact Or.inl rfl
    | cons tok toks => exact Or.inr List.mem_cons_self
  rw [udpFields] at h
  split at h
  next => cases h
  next tok₀ toks htok =>
    rw [htok]
    split at h
    next =>
      split at h
      next => cases h
      next cmd' rest =>
        obtain ⟨-, rfl, rfl⟩ : _ ∧ cmd' = cmd ∧ rest.headD [] = key := by simpa using h
        exact ⟨by simp, (hhead rest).imp_right fun hmem =>
          List.mem_cons_of_mem _ (List.mem_cons_of_mem _ hmem)⟩
    next =>
      obtain ⟨-, rfl, rfl⟩ : _ ∧ tok₀ = cmd ∧ toks.headD [] = key := by simpa using h
      exact ⟨by simp, (hhead toks).imp_right fun hmem => List.mem_cons_of_mem _ hmem⟩

/-- What is logged of them. -/
lemma fields_of_udpCommand {now tNs : UInt64} {cmd key : List UInt8} :
    (∀ q c k, udpCommand args now tNs cmd key = .drop q c k → 0 ≤ q ∧ c = cmd ∧ k = key)
      ∧ ∀ down u q c k, udpCommand args now tNs cmd key = .edge down u q c k →
        0 ≤ q ∧ c = cmd ∧ k = key := by
  unfold udpCommand
  dsimp only
  constructor
  · intro q c k h
    split_ifs at h <;>
    · cases h
      exact ⟨nsToMs_nonneg _, rfl, rfl⟩
  · intro down u q c k h
    split_ifs at h <;>
    · cases h
      exact ⟨nsToMs_nonneg _, rfl, rfl⟩

/-- The lines of a datagram of tame bytes. -/
lemma legible_of_datagram {ord : IterOrder UInt8} {now : UInt64}
    (hdata : ∀ b ∈ data, TameByte b) {line : LogLine}
    (hline : line ∈ (handleDatagram args ord now data s).log) : LogLine.Legible line := by
  have htaken : ∀ b ∈ data.take bufSize, TameByte b := fun b hb => hdata b (List.mem_of_mem_take hb)
  rw [handleDatagram, udpVerdict] at hline
  cases hfields : udpFields (data.take bufSize) with
  | none =>
    rw [hfields] at hline
    cases hline
  | some fields =>
    rcases fields with ⟨tNs, cmd, key⟩
    rw [hfields] at hline
    dsimp only at hline
    rcases tokens_of_udpFields hfields with ⟨hcmd, hkey⟩
    have htame : Tame (readText cmd) ∧ Tame (readText key) := by
      refine ⟨tame_of_token htaken hcmd, ?_⟩
      rcases hkey with rfl | hkey
      · exact fun c hc => absurd hc List.not_mem_nil
      · exact tame_of_token htaken hkey
    have hlogged := @fields_of_udpCommand args now tNs cmd key
    cases hverdict : udpCommand args now tNs cmd key with
    | skip | ignore | mark =>
      rw [hverdict] at hline
      cases hline
    | drop q c k =>
      rw [hverdict] at hline
      rcases hlogged.1 q c k hverdict with ⟨hq, rfl, rfl⟩
      rw [List.mem_singleton.mp hline]
      exact ⟨hq, htame⟩
    | edge down u q c k =>
      rw [hverdict] at hline
      rcases hlogged.2 down u q c k hverdict with ⟨hq, rfl, rfl⟩
      rw [List.mem_singleton.mp hline]
      exact ⟨hq, htame⟩

lemma age_of_quicVerdict {now : UInt64} :
    (∀ q usage, quicVerdict args now data = .drop q usage → 0 ≤ q)
      ∧ ∀ mods down usage q seq,
        quicVerdict args now data = .edge mods down usage q seq → 0 ≤ q := by
  unfold quicVerdict
  dsimp only
  constructor
  · intro q usage h
    split_ifs at h <;> cases h
    · exact Nat.cast_nonneg _
    · exact le_rfl
  · intro mods down usage q seq h
    split_ifs at h <;> cases h
    · exact Nat.cast_nonneg _
    · exact le_rfl

/-- The lines of a record. -/
lemma legible_of_quicEdge {ord : IterOrder UInt8} {now : UInt64} {line : LogLine}
    (hline : line ∈ (quicEdgeCallback args ord now data s).log) : LogLine.Legible line := by
  rw [quicEdgeCallback] at hline
  cases hverdict : quicVerdict args now data with
  | short | noKey =>
    rw [hverdict] at hline
    cases hline
  | drop q usage =>
    rw [hverdict] at hline
    rw [List.mem_singleton.mp hline]
    exact age_of_quicVerdict.1 q usage hverdict
  | edge mods down usage q seq =>
    rw [hverdict] at hline
    rw [List.mem_singleton.mp hline]
    exact age_of_quicVerdict.2 mods down usage q seq hverdict

/-- The lines of a snapshot. -/
lemma legible_of_snapshot {ord : IterOrder UInt8} {now : UInt64} {line : LogLine}
    (hline : line ∈ (snapshotCallback ord now data s).log) : LogLine.Legible line := by
  rw [snapshotCallback, parseSnapshot] at hline
  cases hdecode : decodeSnapshot ord data with
  | none =>
    rw [hdecode] at hline
    cases hline
  | some found =>
    rcases found with ⟨mods, keys⟩
    have hlog : line ∈ (reconcile now mods keys s).2 := by
      rwa [hdecode] at hline
    rw [log_reconcile] at hlog
    rcases List.mem_flatMap.mp hlog with ⟨u, -, hu⟩
    rcases mem_healLine.mp hu with ⟨-, t, -, rfl⟩
    exact nsToMs_nonneg _

/-- The lines of a round. -/
lemma legible_of_tick {now : UInt64} {line : LogLine}
    (hline : line ∈ (watchdogTick args now s).log) : LogLine.Legible line := by
  rcases exists_of_mem_log_watchdogTick hline with ⟨u, -, ageMs, hage, rfl | ⟨-, rfl⟩⟩
  · exact hage
  · exact hage

/-- **The lines of a handler can be read.** -/
lemma legible_of_mem_log (htame : ∀ data, e.msg = .datagram data → ∀ b ∈ data, TameByte b)
    {line : LogLine} (hline : line ∈ (handle args s e).log) : LogLine.Legible line := by
  rw [handle] at hline
  split at hline
  next data hmsg => exact legible_of_datagram (htame data hmsg) hline
  next => exact legible_of_snapshot hline
  next => exact legible_of_quicEdge hline
  next => exact legible_of_tick hline

/-- So can those of a run. -/
lemma legible_of_mem_logOf
    (htame : ∀ e ∈ es, ∀ data, e.msg = .datagram data → ∀ b ∈ data, TameByte b) {line : LogLine}
    (hline : line ∈ logOf args s es) : LogLine.Legible line := by
  induction es generalizing s with
  | nil => cases hline
  | cons e es ih =>
    rcases List.forall_mem_cons.mp htame with ⟨he, hes⟩
    rcases List.mem_append.mp hline with hline | hline
    · exact legible_of_mem_log he hline
    · exact ih hes hline

end Legible

/-! ## Counting -/

section Counts

variable {args : Args} {s : KeyState} {e : Event} {es : List Event} {entries : List LogEntry}

/-- What notices do not have is in the lines of the handlers. -/
lemma filterMap_line {β : Type*} {f : LogEntry → Option β} (hnotice : ∀ t, f (.notice t) = none)
    (entries : List LogEntry) :
    entries.filterMap f
      = (entries.filterMap LogEntry.handlerLine).filterMap fun l => f (.line l) := by
  rw [List.filterMap_filterMap]
  refine List.filterMap_congr fun x _ => ?_
  cases x with
  | line l => rfl
  | notice t => exact hnotice t

/-- **One latency for each accepted edge**, and none for anything else. -/
lemma countP_lat (args : Args) (s : KeyState) (e : Event) :
    (handle args s e).log.countP (fun l => (LogEntry.line l).latency.isSome)
      = if isEdge args e then 1 else 0 := by
  have hlog := log_handle args s e
  rw [isEdge]
  cases heff : effectOf args e with
  | snapshot mods keys =>
    rw [heff] at hlog
    rw [hlog, if_neg Bool.false_ne_true, List.countP_eq_zero]
    intro l hl
    rcases List.mem_flatMap.mp hl with ⟨u, -, hu⟩
    rcases mem_healLine.mp hu with ⟨-, t, -, rfl⟩
    exact Bool.false_ne_true
  | scan =>
    rw [heff] at hlog
    rw [hlog, if_neg Bool.false_ne_true, List.countP_eq_zero]
    intro l hl
    rcases List.mem_flatMap.mp hl with ⟨u, -, hu⟩
    rcases mem_visitLines.mp hu with ⟨-, rfl⟩ | ⟨-, rfl⟩
    · exact Bool.false_ne_true
    · exact Bool.false_ne_true
  | none | mark | edge =>
    unfold effectOf at heff
    unfold handle
    cases hmsg : e.msg with
    | datagram data =>
      rw [hmsg] at heff
      dsimp only at heff ⊢
      rw [handleDatagram]
      cases hverdict : udpVerdict args e.now (data.take bufSize) <;> rw [hverdict] at heff <;>
        cases heff <;> rfl
    | snapshot data =>
      rw [hmsg] at heff
      dsimp only at heff ⊢
      rw [snapshotCallback, parseSnapshot]
      cases hdecode : decodeSnapshot e.ord data <;> rw [hdecode] at heff <;> cases heff <;> rfl
    | quicEdge data =>
      rw [hmsg] at heff
      dsimp only at heff ⊢
      rw [quicEdgeCallback]
      cases hverdict : quicVerdict args e.now data <;> rw [hverdict] at heff <;> cases heff <;> rfl
    | tick =>
      rw [hmsg] at heff
      cases heff

lemma length_latencies (args : Args) (s : KeyState) (es : List Event) :
    ((logOf args s es).filterMap fun l => (LogEntry.line l).latency).length
      = es.countP (isEdge args) := by
  rw [List.length_filterMap_eq_countP]
  induction es generalizing s with
  | nil => rfl
  | cons e es ih => rw [logOf, List.countP_append, countP_lat, ih, List.countP_cons, Nat.add_comm]

/-- **Every healing has its marker.** -/
lemma subperm_heals (args : Args) (es : List Event) :
    ((logOf args {} es).filterMap healOf).Subperm (es.filterMap (markOf args)) := by
  refine List.subperm_ext_iff.mpr fun u _ => ?_
  have hheals : ((logOf args {} es).filterMap healOf).count u
      = (logOf args {} es).countP (LogLine.heals u) := by
    rw [List.count_filterMap]
    refine List.countP_congr fun l _ => ?_
    cases l <;> simp [healOf, LogLine.heals]
  have hmarks : (es.filterMap (markOf args)).count u = es.countP (marksKey args u) := by
    rw [List.count_filterMap]
    refine List.countP_congr fun e _ => ?_
    rw [markOf, marksKey]
    cases effectOf args e <;> simp
  have hle := heals_le args u {} es
  rw [hheals, hmarks]
  exact le_of_add_le_left hle

/-- Where a line about a key that is held comes from. -/
inductive Origin (args : Args) (s : KeyState) (e : Event) : LogLine → Prop
  | heal {mods : UInt8} {keys : UnorderedSet UInt8} {u : UInt8} {q : ℚ}
      (heff : effectOf args e = .snapshot mods keys) : Origin args s e (.heal u q)
  | stuck {u : UInt8} {q : ℚ} (hu : u ∈ s.pressed) : Origin args s e (.stuck u q)
  | watchdog {u : UInt8} {q : ℚ} (hu : u ∈ s.pressed)
      (hexpired : expired args e.now (s.keymeta u) = true) : Origin args s e (.watchdog u q)
  | edge {line : LogLine} (h : line.ofEdge = true) : Origin args s e line

lemma origin_of_mem {line : LogLine} (hline : line ∈ (handle args s e).log) :
    Origin args s e line := by
  have hlog := log_handle args s e
  cases heff : effectOf args e with
  | none | mark | edge =>
    rw [heff] at hlog
    exact .edge (hlog line hline)
  | snapshot mods keys =>
    rw [heff] at hlog
    rw [hlog] at hline
    rcases List.mem_flatMap.mp hline with ⟨u, -, hu⟩
    rcases mem_healLine.mp hu with ⟨-, t, -, rfl⟩
    exact .heal heff
  | scan =>
    rw [heff] at hlog
    rw [hlog] at hline
    rcases List.mem_flatMap.mp hline with ⟨u, hpressed, hu⟩
    rcases mem_visitLines.mp hu with ⟨-, rfl⟩ | ⟨hexpired, rfl⟩
    · exact .stuck (UnorderedSet.mem_toList.mp hpressed)
    · exact .watchdog (UnorderedSet.mem_toList.mp hpressed) hexpired

lemma keyless_of_ofEdge {line : LogLine} (h : line.ofEdge = true) :
    healOf line = none ∧ (LogEntry.line line).released = none
      ∧ (LogEntry.line line).stuckKey = none := by
  cases line with
  | heal | stuck | watchdog => cases h
  | drop | dropQuicEdge | lat | latQuicEdge => exact ⟨rfl, rfl, rfl⟩

/-- **The keys on `[watchdog]` and `[stuck]` lines** were pressed. -/
lemma pressed_of_mem_logOf {line : LogLine} (hline : line ∈ logOf args s es) {u : UInt8}
    (hu : u ∈ (LogEntry.line line).released ∨ u ∈ (LogEntry.line line).stuckKey) :
    ∃ pre, pre <+: es ∧ u ∈ (pre.foldl (step args) s).pressed := by
  induction es generalizing s with
  | nil => cases hline
  | cons e es ih =>
    rcases List.mem_append.mp hline with hline | hline
    · refine ⟨[], List.nil_prefix, ?_⟩
      cases origin_of_mem hline with
      | heal heff => rcases hu with hu | hu <;> cases hu
      | stuck hmem => rcases hu with hu | hu <;> cases hu; exact hmem
      | watchdog hmem => rcases hu with hu | hu <;> cases hu; exact hmem
      | edge h =>
        rw [(keyless_of_ofEdge h).2.1, (keyless_of_ofEdge h).2.2] at hu
        rcases hu with hu | hu <;> cases hu
    · rcases ih hline with ⟨pre, hpre, hmem⟩
      exact ⟨e :: pre, List.cons_prefix_cons.mpr ⟨rfl, hpre⟩, hmem⟩

/-- A message that is no snapshot has no effect of one. -/
lemma effectOf_ne_snapshot (h : ∀ data, e.msg ≠ .snapshot data) {mods : UInt8}
    {keys : UnorderedSet UInt8} : effectOf args e ≠ .snapshot mods keys := by
  unfold effectOf
  cases hmsg : e.msg with
  | snapshot data => exact absurd hmsg (h data)
  | datagram data =>
    dsimp only
    split <;> simp
  | quicEdge data =>
    dsimp only
    split <;> simp
  | tick => simp

/-- **Without snapshots** nothing heals, and no key is stamped for the watchdog. -/
lemma lines_of_no_snapshot (hstamp : ∀ u, (s.keymeta u).lastSnapshotNs = 0)
    (hes : ∀ e ∈ es, ∀ data, e.msg ≠ .snapshot data) :
    ∀ line ∈ logOf args s es, healOf line = none ∧ (LogEntry.line line).released = none := by
  induction es generalizing s with
  | nil => exact fun line hline => absurd hline List.not_mem_nil
  | cons e es ih =>
    rcases List.forall_mem_cons.mp hes with ⟨he, hes⟩
    have hstamp' : ∀ u, ((step args s e).keymeta u).lastSnapshotNs = 0 := by
      intro u
      rw [lastSnapshotNs_step]
      cases heff : effectOf args e with
      | snapshot mods keys => exact absurd heff (effectOf_ne_snapshot he)
      | none | mark | edge | scan => exact hstamp u
    intro line hline
    rcases List.mem_append.mp hline with hline | hline
    · cases origin_of_mem hline with
      | heal heff => exact absurd heff (effectOf_ne_snapshot he)
      | stuck => exact ⟨rfl, rfl⟩
      | @watchdog u q hmem hexpired =>
        simp [expired, hstamp u] at hexpired
      | edge h => exact ⟨(keyless_of_ofEdge h).1, (keyless_of_ofEdge h).2.1⟩
    · exact ih hstamp' hes line hline

end Counts

/-! ## The numbers of a run -/

section Numbers

variable {args : Args} {es : List Event} {entries : List LogEntry}

/-- The log of a run can be read. -/
lemma LogOfRun.legible (h : LogOfRun args es entries) : ∀ x ∈ entries, x.Legible := by
  intro x hx
  cases x with
  | notice t => exact h.notices t hx
  | line l =>
    have hl : l ∈ logOf args {} es := by
      rw [← h.lines]
      exact List.mem_filterMap.mpr ⟨_, hx, rfl⟩
    exact legible_of_mem_logOf h.tame hl

lemma LogOfRun.lats (h : LogOfRun args es entries) :
    List.Forall₂ ReadsAs ((logOf args {} es).filterMap fun l => (LogEntry.line l).latency)
      (parseLog (fileOf entries)).lats := by
  have hlats := lats_fileOf h.legible
  rwa [filterMap_line (fun _ => rfl) entries, h.lines] at hlats

/-- One latency for each accepted edge. -/
lemma LogOfRun.length_lats (h : LogOfRun args es entries) :
    (parseLog (fileOf entries)).lats.length = es.countP (isEdge args) := by
  rw [← h.lats.length_eq, length_latencies]

/-- One healing time for each `[heal]` line. -/
lemma LogOfRun.length_heals (h : LogOfRun args es entries) :
    (parseLog (fileOf entries)).heals.length = ((logOf args {} es).filterMap healOf).length := by
  have hheals := heals_fileOf h.legible
  rw [filterMap_line (fun _ => rfl) entries, h.lines] at hheals
  rw [← hheals.length_eq, List.length_filterMap_eq_countP, List.length_filterMap_eq_countP]
  refine List.countP_congr fun l _ => ?_
  cases l <;> simp [LogEntry.healed, healOf]

/-- No more healings than keyup markers. -/
lemma LogOfRun.length_heals_le (h : LogOfRun args es entries) :
    (parseLog (fileOf entries)).heals.length ≤ es.countP (fun e => (markOf args e).isSome) := by
  rw [h.length_heals, ← List.length_filterMap_eq_countP]
  exact (subperm_heals args es).length_le

/-- **The script's numbers are those of the run.** There is one latency for each accepted
edge, the age at which it was accepted; no more healings than keyup markers; and the keys on
the lines of the monitor were pressed at some time. Without snapshots nothing heals and the
watchdog never fires, so that all stuck events are keys that were reported. -/
theorem numbers_of_run (h : LogOfRun args es entries) :
    let log := fileOf entries
    let r := parseLog log
    List.Forall₂ ReadsAs ((logOf args {} es).filterMap fun l => (LogEntry.line l).latency) r.lats
      ∧ r.lats.length = es.countP (isEdge args)
      ∧ r.heals.length ≤ es.countP (fun e => (markOf args e).isSome)
      ∧ (∀ k, k ∈ parseWatchdogKeys log ∨ k ∈ parseStuckKeys log →
        ∃ pre u, pre <+: es ∧ u ∈ (run args pre).pressed ∧ k = u.toNat)
      ∧ ((∀ e ∈ es, ∀ data, e.msg ≠ .snapshot data) →
        r.heals = [] ∧ r.watchdog = 0 ∧ stuckEvents log = (parseStuckKeys log).card) := by
  intro log r
  have hlegible := h.legible
  have hreleased : entries.filterMap LogEntry.released = _ := filterMap_line (fun _ => rfl) entries
  have hstuck : entries.filterMap LogEntry.stuckKey = _ := filterMap_line (fun _ => rfl) entries
  rw [h.lines] at hreleased hstuck
  have hwatchdogKeys : parseWatchdogKeys log = _ := parseWatchdogKeys_fileOf hlegible
  have hstuckKeys : parseStuckKeys log = _ := parseStuckKeys_fileOf hlegible
  rw [hreleased] at hwatchdogKeys
  rw [hstuck] at hstuckKeys
  refine ⟨h.lats, h.length_lats, h.length_heals_le, fun k hk => ?_, fun hes => ?_⟩
  · rw [hwatchdogKeys, hstuckKeys, List.mem_toFinset, List.mem_toFinset] at hk
    have hline : ∃ line ∈ logOf args {} es, ∃ u, k = u.toNat
        ∧ (u ∈ (LogEntry.line line).released ∨ u ∈ (LogEntry.line line).stuckKey) := by
      rcases hk with hk | hk
      · rcases List.mem_map.mp hk with ⟨u, hu, rfl⟩
        rcases List.mem_filterMap.mp hu with ⟨line, hline, hu⟩
        exact ⟨line, hline, u, rfl, Or.inl hu⟩
      · rcases List.mem_map.mp hk with ⟨u, hu, rfl⟩
        rcases List.mem_filterMap.mp hu with ⟨line, hline, hu⟩
        exact ⟨line, hline, u, rfl, Or.inr hu⟩
    rcases hline with ⟨line, hline, u, rfl, hu⟩
    rcases pressed_of_mem_logOf hline hu with ⟨pre, hpre, hmem⟩
    exact ⟨pre, u, hpre, hmem, rfl⟩
  · have hquiet : ∀ line ∈ logOf args {} es,
        healOf line = none ∧ (LogEntry.line line).released = none :=
      lines_of_no_snapshot (fun _ => rfl) hes
    have hnoHeals : r.heals = [] := by
      have hnil : (logOf args {} es).filterMap healOf = [] :=
        List.filterMap_eq_nil_iff.mpr fun line hline => (hquiet line hline).1
      rw [← List.length_eq_zero_iff, h.length_heals, hnil]
      rfl
    have hnoReleases : (logOf args {} es).filterMap (fun l => (LogEntry.line l).released) = [] :=
      List.filterMap_eq_nil_iff.mpr fun line hline => (hquiet line hline).2
    refine ⟨hnoHeals, ?_, ?_⟩
    · rw [watchdog_fileOf hlegible, hreleased, hnoReleases]
      rfl
    · rw [stuckEvents, hwatchdogKeys, hnoReleases]
      show r.heals.countP _ + 0 + _ = _
      rw [hnoHeals, List.countP_nil, Nat.zero_add]

/-- A keyup that is lost: `a` goes down, and is still down 400 ms later. -/
def lostKeyup : List Event :=
  [{ msg := .datagram (ascii ['d', 'o', 'w', 'n', ' ', 'a']), now := 1000000000, ord := .back _ },
    tickAt 1400000000]

/-- Its log, behind a message of the daemon. -/
def lostKeyupLog : List LogEntry :=
  .notice ['[', 'h', 'i', 'd', 'r', 'a', ']', ' ', 'u', 'p'] :: (logOf {} {} lostKeyup).map .line

/-- The script counts one latency and no healing, and the watchdog has not fired. -/
theorem numbers_of_run_lostKeyup :
    (parseLog (fileOf lostKeyupLog)).lats.length = 1 ∧ (parseLog (fileOf lostKeyupLog)).heals = []
      ∧ (parseLog (fileOf lostKeyupLog)).watchdog = 0 := by
  have hlog : LogOfRun {} lostKeyup lostKeyupLog := by
    refine ⟨?_, ?_, ?_⟩
    · intro e he data hdata b hb
      rcases List.mem_cons.mp he with rfl | he
      · cases hdata
        have hall : (ascii ['d', 'o', 'w', 'n', ' ', 'a']).all (fun b =>
            b.toNat < 128 && b != 0x5B && b != 0x0B && b != 0x0C && b != 0x1C && b != 0x1D
              && b != 0x1E) = true := by decide
        simpa [TameByte, and_assoc] using List.all_eq_true.mp hall b hb
      · rw [List.mem_singleton.mp he] at hdata
        cases hdata
    · rw [lostKeyupLog, List.filterMap_cons_none rfl, List.filterMap_map]
      exact List.filterMap_some
    · intro text htext
      rcases List.mem_cons.mp htext with htext | htext
      · rw [htext]
        exact ⟨plain_of_all (by decide), by decide, _, List.mem_cons_self, by decide⟩
      · rcases List.mem_map.mp htext with ⟨l, -, hl⟩
        cases hl
  have hno : ∀ e ∈ lostKeyup, ∀ data, e.msg ≠ .snapshot data := by
    intro e he data
    simp only [lostKeyup, List.mem_cons, List.not_mem_nil, or_false] at he
    rcases he with rfl | rfl <;> simp [tickAt]
  rcases numbers_of_run hlog with ⟨-, hcount, -, -, hquiet⟩
  exact ⟨hcount.trans (by decide +kernel), (hquiet hno).1, (hquiet hno).2.1⟩

end Numbers

end QuicKeys.Scripts
