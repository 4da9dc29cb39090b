import QuicKeys.Client.DroppedKeyups
import QuicKeys.Scripts.RunMetrics

/-!
# The workloads of the report

`run_case` divides what it counts in the log by the number of characters typed, and gives the
client as much time as it estimates for the typing. Both numbers are computed apart from the
events that `hybrid_run.py` goes through.
-/

namespace QuicKeys.Scripts

open Ascii Client Daemon

/-! ## The two workloads -/

/-- `--workload`. -/
inductive WorkloadName
  | apt
  | alphabet
deriving DecidableEq

/-- The text that `hybrid_run.py` types. -/
def WorkloadName.text : WorkloadName → List Char
  | .apt => ['a', 'p', 't', '\n']
  | .alphabet => ['a', 'b', 'c', 'd', 'e', 'f', 'g', 'h', 'i', 'j', 'k', 'l', 'm', 'n', 'o', 'p',
    'q', 'r', 's', 't', 'u', 'v', 'w', 'x', 'y', 'z', '\n']

/-- `total_markers` of `run_case`. -/
def totalMarkers (w : WorkloadName) (repeats : ℕ) : ℕ := (if w = .apt then 4 else 27) * repeats

/-- `estimate_duration_s`, in milliseconds. -/
def estimateDurationMs (w : WorkloadName) (repeats : ℕ) (keyDelayMs : ℚ) : ℚ :=
  let textLen : ℚ := if w = .apt then 4 else 27
  let perCharMs := keyDelayMs + keyDelayMs + 1
  textLen * repeats * perCharMs

lemma length_repeated (w : WorkloadName) (repeats : ℕ) :
    (repeated w.text repeats).length = totalMarkers w repeats := by
  rw [repeated, List.length_flatMap, totalMarkers]
  simp
  cases w <;> simp [WorkloadName.text, Nat.mul_comm]

/-- The characters of the texts have keys. -/
lemma exists_key {w : WorkloadName} {ch : Char} (h : ch ∈ w.text) :
    ∃ k : Key, keyOfChar ch = k.name := by
  have hall : ∀ w : WorkloadName, w.text.all
      (fun c => c == '\n' || (97 ≤ c.toNat && c.toNat ≤ 122)) = true := by
    intro w
    cases w <;> decide
  have hch := List.all_eq_true.mp (hall w) ch h
  simp only [Bool.or_eq_true, beq_iff_eq, Bool.and_eq_true, decide_eq_true_eq] at hch
  rcases hch with rfl | ⟨hlow, hhigh⟩
  · exact ⟨.enter, rfl⟩
  · have hne : ch ≠ '\n' := by
      rintro rfl
      exact absurd hlow (by decide)
    refine ⟨.letter ⟨ch.toNat - 97, by omega⟩, ?_⟩
    rw [keyOfChar, if_neg hne, Key.name, Nat.add_sub_of_le hlow, Char.ofNat_toNat]

/-- So have the events. -/
lemma key_of_workload {w : WorkloadName} {repeats : ℕ} {keyDelayMs : ℚ} {e : ScriptEvent}
    (he : e ∈ workloadEvents w.text repeats keyDelayMs) : ∃ k : Key, e.key = k.name := by
  rw [workloadEvents_eq] at he
  rcases key_of_mem_typed he with ⟨ch, hch, hkey⟩
  rcases List.mem_flatMap.mp hch with ⟨-, -, hmem⟩
  rw [hkey]
  exact exists_key hmem

lemma heard_key_name (k : Key) : heard k.name = k.usage := by
  rw [heard, tokenize_key_name, List.headD_cons, usageOfKey_name]

/-- The time the events of a text wait. -/
lemma sum_delayMs_typed (keyDelayMs carry : ℚ) (ch : Char) (chs : List Char) :
    ((typed keyDelayMs carry (ch :: chs)).map ScriptEvent.delayMs).sum
      = carry + keyDelayMs + 2 * chs.length * keyDelayMs := by
  induction chs generalizing carry ch with
  | nil => simp [typed]
  | cons c chs ih =>
    rw [typed, List.map_cons, List.map_cons, List.map_cons, List.sum_cons, List.sum_cons,
      List.sum_cons, ih, List.length_cons]
    push_cast
    ring

lemma estimateDurationMs_eq (w : WorkloadName) (repeats : ℕ) (keyDelayMs : ℚ) :
    estimateDurationMs w repeats keyDelayMs
      = totalMarkers w repeats * (2 * keyDelayMs) + totalMarkers w repeats := by
  rw [estimateDurationMs, totalMarkers]
  cases w <;> simp <;> ring

/-- **The estimate is enough** for the waiting of the sender: it leaves a millisecond for each
character. -/
lemma sum_delayMs_le {keyDelayMs : ℚ} (hdelay : 0 ≤ keyDelayMs) (w : WorkloadName)
    (repeats : ℕ) :
    ((workloadEvents w.text repeats keyDelayMs).map ScriptEvent.delayMs).sum
        + totalMarkers w repeats
      ≤ estimateDurationMs w repeats keyDelayMs := by
  rw [estimateDurationMs_eq, workloadEvents_eq, ← length_repeated]
  refine add_le_add_left ?_ _
  cases repeated w.text repeats with
  | nil => simp [typed]
  | cons ch chs =>
    rw [sum_delayMs_typed, List.length_cons]
    push_cast
    linarith

/-! ## What reaches the daemon -/

section Packets

variable {args : Args} {e : ScriptEvent} {m : Moment}

lemma cmd_of_markOf (hlen : (utf8 e.key).length ≤ 5)
    (h : (markOf args (deliver e m)).isSome = true) : e.cmd = .mup := by
  rw [markOf, effectOf_packet hlen] at h
  by_cases hin : WithinDeadline args m.now m.tNs ∧ heard e.key ≠ 0
  · rw [if_pos hin] at h
    cases hcmd : e.cmd <;> rw [hcmd] at h <;> first | rfl | cases h
  · rw [if_neg hin] at h
    cases h

lemma cmd_of_isEdge (hlen : (utf8 e.key).length ≤ 5)
    (h : isEdge args (deliver e m) = true) : e.cmd ≠ .mup := by
  intro hcmd
  rw [isEdge, effectOf_packet hlen, hcmd] at h
  split_ifs at h

/-- Without a deadline the packet of a known key is never in vain. -/
lemma isEdge_packet (hdl : args.deadlineMs ≤ 0) (hlen : (utf8 e.key).length ≤ 5)
    (hkey : heard e.key ≠ 0) (hcmd : e.cmd ≠ .mup) : isEdge args (deliver e m) = true := by
  rw [isEdge, effectOf_deliver hdl hlen, if_neg hkey]
  cases h : e.cmd with
  | mup => exact absurd h hcmd
  | down => rfl
  | up => rfl

end Packets

lemma tame_of_all {w : List UInt8} (h : w.all (fun b => b.toNat < 128 && b != 0x5B && b != 0x0B
    && b != 0x0C && b != 0x1C && b != 0x1D && b != 0x1E) = true) : ∀ b ∈ w, TameByte b := by
  intro b hb
  simpa [TameByte, and_assoc] using List.all_eq_true.mp h b hb

/-- The bytes of a packet are letters, digits, spaces and the equals sign. -/
lemma tame_buildEdgeMsg (cmd : Cmd) (k : Key) (t : ℕ) :
    ∀ b ∈ buildEdgeMsg cmd k.name t, TameByte b := by
  have hdigits : ∀ b ∈ decimal t, TameByte b := by
    intro b hb
    have hdigit := isDigit_of_mem_decimal hb
    simp only [isDigit, Bool.and_eq_true, decide_eq_true_eq, UInt8.le_iff_toNat_le] at hdigit
    refine ⟨lt_of_le_of_lt hdigit.2 (by decide), ?_⟩
    refine ⟨?_, ?_, ?_, ?_, ?_, ?_⟩ <;>
    · rintro rfl
      revert hdigit
      decide
  have hcmd : ∀ b ∈ ascii cmd.name, TameByte b :=
    tame_of_all (by cases cmd <;> decide)
  have hkey : ∀ b ∈ ascii k.name, TameByte b := by
    apply tame_of_all
    cases k with
    | letter i =>
      revert i
      decide
    | enter => decide
  rw [buildEdgeMsg_eq, utf8_key_name]
  intro b hb
  rcases List.mem_append.mp hb with hb | hb
  · rcases List.mem_append.mp hb with hb | hb
    · exact tame_of_all (w := ascii ['t', '=']) (by decide) b hb
    · exact hdigits b hb
  rcases List.mem_cons.mp hb with rfl | hb
  · exact tame_of_all (w := [0x20]) (by decide) _ List.mem_cons_self
  rcases List.mem_append.mp hb with hb | hb
  · exact hcmd b hb
  rcases List.mem_cons.mp hb with rfl | hb
  · exact tame_of_all (w := [0x20]) (by decide) _ List.mem_cons_self
  · exact hkey b hb

/-- An event of the UDP socket. -/
def isDatagram (e : Event) : Bool :=
  match e.msg with
  | .datagram _ => true
  | _ => false

/-- A run of the daemon while a workload is typed: of the packets any number may be lost, and
the others come in any order, between snapshots and rounds; and its log, in whole lines and in
the order of the handlers. -/
structure WorkloadRun (args : Args) (w : WorkloadName) (repeats : ℕ) (keyDelayMs : ℚ)
    (xs : List Client.Sent) (es : List Event) (entries : List LogEntry) : Prop where
  script : xs.map Client.Sent.event = workloadEvents w.text repeats keyDelayMs
  packets : (es.filter isDatagram).Subperm (xs.map Client.Sent.deliver)
  noRecords : ∀ e ∈ es, ∀ data, e.msg ≠ .quicEdge data
  lines : entries.filterMap LogEntry.handlerLine = logOf args {} es
  notices : ∀ text, .notice text ∈ entries → (LogEntry.notice text).Legible

section Run

variable {args : Args} {w : WorkloadName} {repeats : ℕ} {keyDelayMs : ℚ} {xs : List Client.Sent}
  {es : List Event} {entries : List LogEntry}

lemma WorkloadRun.key (h : WorkloadRun args w repeats keyDelayMs xs es entries) {x : Client.Sent}
    (hx : x ∈ xs) : ∃ k : Key, x.event.key = k.name := by
  have hmem : x.event ∈ workloadEvents w.text repeats keyDelayMs := by
    rw [← h.script]
    exact List.mem_map_of_mem hx
  exact key_of_workload hmem

/-- The events of the socket are packets that were sent. -/
lemma WorkloadRun.sent (h : WorkloadRun args w repeats keyDelayMs xs es entries) {e : Event}
    (he : e ∈ es) {data : List UInt8} (hmsg : e.msg = .datagram data) :
    ∃ x ∈ xs, e = x.deliver := by
  have hmem : e ∈ es.filter isDatagram :=
    List.mem_filter.mpr ⟨he, by rw [isDatagram, hmsg]⟩
  rcases List.mem_map.mp (h.packets.subset hmem) with ⟨x, hx, rfl⟩
  exact ⟨x, hx, rfl⟩

/-- The log is that of a run the script can read. -/
lemma WorkloadRun.logOfRun (h : WorkloadRun args w repeats keyDelayMs xs es entries) :
    LogOfRun args es entries := by
  refine ⟨fun e he data hmsg => ?_, h.lines, h.notices⟩
  rcases h.sent he hmsg with ⟨x, hx, rfl⟩
  rcases h.key hx with ⟨k, hk⟩
  obtain rfl : buildEdgeMsg x.event.cmd x.event.key x.moment.tNs.toNat = data := by
    simpa [Client.Sent.deliver, Client.deliver] using hmsg
  rw [hk]
  exact tame_buildEdgeMsg _ _ _

/-- The packets among the events are packets that were sent. -/
lemma WorkloadRun.countP_le (h : WorkloadRun args w repeats keyDelayMs xs es entries)
    {p : Event → Bool} (hp : ∀ e ∈ es, p e = true → isDatagram e = true) :
    es.countP p ≤ (xs.map Client.Sent.deliver).countP p := by
  have hfilter : es.countP p = (es.filter isDatagram).countP p := by
    rw [List.countP_filter]
    refine List.countP_congr fun e he => ?_
    rw [Bool.and_eq_true]
    exact ⟨fun hpe => ⟨hpe, hp e he hpe⟩, fun hpe => hpe.1⟩
  rw [hfilter]
  exact h.packets.countP_le p

lemma countP_typed_mup (keyDelayMs carry : ℚ) (chs : List Char) :
    (typed keyDelayMs carry chs).countP (·.cmd = .mup) = chs.length
      ∧ (typed keyDelayMs carry chs).countP (·.cmd ≠ .mup) = 2 * chs.length := by
  induction chs generalizing carry with
  | nil => exact ⟨rfl, rfl⟩
  | cons ch chs ih =>
    simp only [typed, List.countP_cons, ih keyDelayMs]
    simp
    omega

/-- What the packets do is in the script. -/
lemma countP_deliver_le {p : Event → Bool} {q : ScriptEvent → Bool}
    (hpq : ∀ x ∈ xs, p x.deliver = true → q x.event = true) :
    (xs.map Client.Sent.deliver).countP p ≤ (xs.map Client.Sent.event).countP q := by
  rw [List.countP_map, List.countP_map]
  exact List.countP_mono_left hpq

lemma WorkloadRun.countP_script (h : WorkloadRun args w repeats keyDelayMs xs es entries) :
    (xs.map Client.Sent.event).countP (·.cmd = .mup) = totalMarkers w repeats
      ∧ (xs.map Client.Sent.event).countP (·.cmd ≠ .mup) = 2 * totalMarkers w repeats := by
  rw [h.script, workloadEvents_eq, ← length_repeated]
  exact countP_typed_mup keyDelayMs 0 _

lemma isDatagram_of_mark {e : Event} (h : (markOf args e).isSome = true) :
    isDatagram e = true := by
  revert h
  unfold markOf effectOf isDatagram
  cases e.msg with
  | datagram data => exact fun _ => rfl
  | snapshot data =>
    dsimp only
    cases decodeSnapshot e.ord data <;> exact id
  | quicEdge data =>
    dsimp only
    cases quicVerdict args e.now data <;> exact id
  | tick => exact id

lemma WorkloadRun.isDatagram_of_isEdge
    (h : WorkloadRun args w repeats keyDelayMs xs es entries) {e : Event} (he : e ∈ es)
    (hedge : isEdge args e = true) : isDatagram e = true := by
  revert hedge
  unfold isEdge effectOf isDatagram
  cases hmsg : e.msg with
  | datagram data => exact fun _ => rfl
  | snapshot data =>
    dsimp only
    cases decodeSnapshot e.ord data <;> exact id
  | quicEdge data => exact absurd hmsg (h.noRecords e he data)
  | tick => exact id

/-- **What `run_case` divides by.** Whatever is lost, reordered or late, the log of a workload
has no more latencies than two for each character, and no more healings than one. When nothing
is lost and no edge is too old, it has two latencies for each character. -/
theorem numbers_of_workload (h : WorkloadRun args w repeats keyDelayMs xs es entries) :
    let r := parseLog (fileOf entries)
    r.lats.length ≤ 2 * totalMarkers w repeats
      ∧ r.heals.length ≤ totalMarkers w repeats
      ∧ (args.deadlineMs ≤ 0 → (es.filter isDatagram).Perm (xs.map Client.Sent.deliver) →
        r.lats.length = 2 * totalMarkers w repeats) := by
  intro r
  have hlen : ∀ x ∈ xs, (utf8 x.event.key).length ≤ 5 := by
    intro x hx
    rcases h.key hx with ⟨k, hk⟩
    rw [hk]
    exact length_utf8_key_name k
  have hedges : r.lats.length = es.countP (isEdge args) := h.logOfRun.length_lats
  have hle : (xs.map Client.Sent.deliver).countP (isEdge args) ≤ 2 * totalMarkers w repeats := by
    rw [← h.countP_script.2]
    exact countP_deliver_le fun x hx hx' => decide_eq_true (cmd_of_isEdge (hlen x hx) hx')
  refine ⟨?_, ?_, fun hdl hperm => ?_⟩
  · rw [hedges]
    exact (h.countP_le fun e he => h.isDatagram_of_isEdge he).trans hle
  · refine h.logOfRun.length_heals_le.trans ?_
    refine (h.countP_le fun e _ => isDatagram_of_mark).trans ?_
    rw [← h.countP_script.1]
    exact countP_deliver_le fun x hx hx' => decide_eq_true (cmd_of_markOf (hlen x hx) hx')
  · -- every packet of an edge is there, and its key is known
    have hall : (xs.map Client.Sent.event).countP (·.cmd ≠ .mup)
        ≤ (xs.map Client.Sent.deliver).countP (isEdge args) := by
      rw [List.countP_map, List.countP_map]
      refine List.countP_mono_left fun x hx hcmd => ?_
      have hheard : heard x.event.key ≠ 0 := by
        rcases h.key hx with ⟨k, hk⟩
        rw [hk, heard_key_name]
        exact usage_ne_zero k
      exact isEdge_packet hdl (hlen x hx) hheard (of_decide_eq_true hcmd)
    have hfilter : (es.filter isDatagram).countP (isEdge args) ≤ es.countP (isEdge args) :=
      (List.filter_sublist).countP_le
    rw [h.countP_script.2] at hall
    rw [hperm.countP_eq] at hfilter
    rw [hedges]
    exact le_antisymm ((h.countP_le fun e he => h.isDatagram_of_isEdge he).trans hle)
      (hall.trans hfilter)

/-- `apt` typed once, every packet on its way for a millisecond. -/
def aptSent : List Client.Sent :=
  (workloadEvents WorkloadName.apt.text 1 10).map fun e =>
    ⟨e, { tNs := 1000000, now := 2000000, ord := .back _, setOrd := .back _ }, false⟩

/-- The log of the daemon, started with `--deadline-ms 0`. -/
def aptLog : List LogEntry :=
  (logOf { deadlineMs := 0 } {} (aptSent.map Client.Sent.deliver)).map .line

/-- It has eight latencies. -/
theorem numbers_of_workload_apt : (parseLog (fileOf aptLog)).lats.length = 8 := by
  have hall :
      (aptSent.map Client.Sent.deliver).filter isDatagram = aptSent.map Client.Sent.deliver := by
    refine List.filter_eq_self.mpr fun e he => ?_
    rcases List.mem_map.mp he with ⟨x, -, rfl⟩
    rfl
  have hrun : WorkloadRun { deadlineMs := 0 } .apt 1 10 aptSent (aptSent.map Client.Sent.deliver)
      aptLog := by
    refine ⟨?_, ?_, ?_, ?_, ?_⟩
    · rw [aptSent, List.map_map]
      exact List.map_id _
    · rw [hall]
    · intro e he data hmsg
      rcases List.mem_map.mp he with ⟨x, -, rfl⟩
      cases hmsg
    · rw [aptLog, List.filterMap_map]
      exact List.filterMap_some
    · intro text htext
      rcases List.mem_map.mp htext with ⟨l, -, hl⟩
      cases hl
  exact (numbers_of_workload hrun).2.2 (by decide) (by rw [hall])

end Run

end QuicKeys.Scripts
