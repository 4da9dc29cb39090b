import QuicKeys.Client.EdgeStream

/-!
# The client without timestamps

`client.py` sends the edges of a text as datagrams of two words. The daemon takes such an edge
for one that was sent when it is processed: however long it was on its way, its age is 0, and
no deadline drops it.
-/

namespace QuicKeys.Client.PlainUdp

open Ascii Daemon Runs

/-! ## The client -/

/-- `script_from_text`: the delay in milliseconds, the command and the key. -/
def scriptFromText (txt : List Char) : List (ℚ × Cmd × List Char) :=
  txt.flatMap fun ch => [(10, .down, keyOfChar ch), (20, .up, keyOfChar ch)]

/-- `f"{cmd} {key}".encode()` -/
def plainMsg (cmd : Cmd) (key : List Char) : List UInt8 := utf8 (cmd.name ++ [' '] ++ key)

/-- An event of a script, and what `random.random()` returns for it. -/
structure Turn where
  event : ℚ × Cmd × List Char
  draw : ℚ

/-- `loss > 0 and random.random() < loss` -/
def Turn.lost (loss : ℚ) (t : Turn) : Prop := 0 < loss ∧ t.draw < loss

instance (loss : ℚ) (t : Turn) : Decidable (t.lost loss) := inferInstanceAs (Decidable (_ ∧ _))

/-- `send_udp` -/
def sendUdp (loss : ℚ) (turns : List Turn) : List (List UInt8) :=
  (turns.filter fun t => ¬t.lost loss).map fun t => plainMsg t.event.2.1 t.event.2.2

/-! ## What the daemon reads -/

lemma plainMsg_eq (cmd : Cmd) (key : List Char) :
    plainMsg cmd key = ascii cmd.name ++ 0x20 :: utf8 key := by
  rw [plainMsg, utf8_append, utf8_append, utf8_cmd_name, List.append_assoc]
  rfl

lemma tokenize_plainMsg (cmd : Cmd) (key : List Char) :
    tokenize (plainMsg cmd key) = ascii cmd.name :: tokenize (utf8 key) := by
  have hcmd : ascii cmd.name ≠ [] := by
    cases cmd <;> exact List.cons_ne_nil _ _
  rw [tokenize_eq_words, tokenize_eq_words, plainMsg_eq,
    Words.words_append_sep (not_isSeparator_cmd_name cmd) hcmd (by decide)]

section Verdict

variable {args : Args} {now : UInt64} {cmd : Cmd} {key : List Char}

/-- The timestamp of the datagram is the clock. -/
lemma udpVerdict_plainMsg (hlen : (utf8 key).length ≤ 5) :
    udpVerdict args now ((plainMsg cmd key).take bufSize)
      = udpCommand args now 0 (ascii cmd.name) ((tokenize (utf8 key)).headD []) := by
  have htake : (plainMsg cmd key).take bufSize = plainMsg cmd key := by
    have hcmd : (ascii cmd.name).length ≤ 4 := by
      cases cmd <;> decide
    apply List.take_of_length_le
    rw [plainMsg_eq, List.length_append, List.length_cons, bufSize]
    omega
  have hno : ¬ascii ['t', '='] <+: ascii cmd.name := by
    cases cmd <;> decide
  rw [htake, udpVerdict, udpFields, tokenize_plainMsg]
  dsimp only
  rw [if_neg hno]

/-- **No deadline drops it**, and its age is 0. -/
lemma udpCommand_zero {cmd key : List UInt8} :
    udpCommand args now 0 cmd key
      = if usageOfKey key = 0 then .ignore
        else if cmd = ascii ['m', 'u', 'p'] then .mark (usageOfKey key) now
        else if cmd = ascii ['d', 'o', 'w', 'n'] then .edge true (usageOfKey key) 0 cmd key
        else if cmd = ascii ['u', 'p'] then .edge false (usageOfKey key) 0 cmd key
        else .ignore := by
  have hage : nsToMs (now - now) = 0 := by simp [nsToMs]
  unfold udpCommand
  dsimp only
  rw [if_pos rfl, hage, if_neg]
  rintro ⟨hpos, hlt⟩
  have hnonneg : (0 : ℚ) < args.deadlineMs.toInt := by
    exact_mod_cast Int32.lt_iff_toInt_lt.mp hpos
  exact absurd hlt (not_lt.mpr hnonneg.le)

end Verdict

/-! ## One packet -/

/-- Key `u` after a packet. -/
def heldAfter (u : UInt8) (was : Bool) (x : Cmd × List Char) : Bool :=
  if heard x.2 ≠ 0 ∧ u = heard x.2 then
    match x.1 with
    | .down => true
    | .mup => was
    | .up => false
  else was

/-- A line about an edge that was not too old, and has no age. -/
def Ageless : LogLine → Prop
  | .drop .. => False
  | .lat dtMs .. => dtMs = 0
  | _ => True

section Steps

variable {args : Args} {s : KeyState} {e : Event} {cmd : Cmd} {key : List Char}

lemma effectOf_plainMsg (hmsg : e.msg = .datagram (plainMsg cmd key))
    (hlen : (utf8 key).length ≤ 5) :
    effectOf args e
      = if heard key = 0 then .none
        else match cmd with
          | .down => .edge none true (heard key)
          | .mup => .mark (heard key) e.now
          | .up => .edge none false (heard key) := by
  rcases e with ⟨msg, now, ord⟩
  obtain rfl : msg = .datagram (plainMsg cmd key) := hmsg
  unfold effectOf
  dsimp only
  rw [udpVerdict_plainMsg hlen, udpCommand_zero, ← heard]
  by_cases hu : heard key = 0
  · rw [if_pos hu, if_pos hu]
  · rw [if_neg hu, if_neg hu]
    cases cmd <;> rfl

/-- **Step lemma**, for a packet. -/
lemma packet_step (hmsg : e.msg = .datagram (plainMsg cmd key)) (hlen : (utf8 key).length ≤ 5) :
    (∀ u, held (step args s e) u = heldAfter u (held s u) (cmd, key))
      ∧ (∀ u, ((step args s e).keymeta u).lastSnapshotNs = (s.keymeta u).lastSnapshotNs) := by
  have heff := @effectOf_plainMsg args e cmd key hmsg hlen
  refine ⟨fun u => ?_, fun u => ?_⟩
  · rw [held_step, Registers.Write.apply, writeOf, heff, heldAfter]
    by_cases hu : heard key = 0
    · simp [hu, Effect.write]
    · cases cmd <;> by_cases huv : u = heard key <;> simp [hu, huv, Effect.write]
  · rw [lastSnapshotNs_step, heff]
    by_cases hu : heard key = 0
    · rw [if_pos hu]
    · rw [if_neg hu]
      cases cmd <;> rfl

/-- Its lines. -/
lemma ageless_packet (hmsg : e.msg = .datagram (plainMsg cmd key)) (hlen : (utf8 key).length ≤ 5)
    {line : LogLine} (hline : line ∈ (handle args s e).log) : Ageless line := by
  rw [handle, hmsg] at hline
  dsimp only at hline
  rw [handleDatagram, udpVerdict_plainMsg hlen, udpCommand_zero] at hline
  split_ifs at hline
  · cases hline
  · cases hline
  · rw [List.mem_singleton.mp hline]
    rfl
  · rw [List.mem_singleton.mp hline]
    rfl
  · cases hline

/-- The lines of a round. -/
lemma ageless_tick (hmsg : e.msg = .tick) {line : LogLine}
    (hline : line ∈ (handle args s e).log) : Ageless line := by
  rw [handle_of_tick hmsg] at hline
  rcases exists_of_mem_log_watchdogTick hline with ⟨u, -, ageMs, -, rfl | ⟨-, rfl⟩⟩
  · trivial
  · trivial

end Steps

/-! ## A script -/

section Script

variable {args : Args} {txt : List Char} {es : List Event}

/-- The packet of an event. -/
def packetOf (e : Event) : Option (List UInt8) :=
  match e.msg with
  | .datagram data => some data
  | _ => none

/-- A packet of the script. -/
def FromScript (txt : List Char) (x : Cmd × List Char) : Prop := ∃ ch ∈ txt, x.2 = keyOfChar ch

/-- The socket gets packets of the script, and the monitor thread goes its rounds. -/
def OnlyScript (txt : List Char) (es : List Event) : Prop :=
  ∀ e ∈ es, e.msg = .tick ∨ ∃ x, FromScript txt x ∧ e.msg = .datagram (plainMsg x.1 x.2)

lemma FromScript.length_le {x : Cmd × List Char} (h : FromScript txt x) :
    (utf8 x.2).length ≤ 5 := by
  rcases h with ⟨ch, -, hkey⟩
  rw [hkey]
  exact length_utf8_keyOfChar ch

/-- **Run lemma**, for the lines. -/
lemma ageless_logOf (h : OnlyScript txt es) {s : KeyState} {line : LogLine}
    (hline : line ∈ logOf args s es) : Ageless line := by
  induction es generalizing s with
  | nil => cases hline
  | cons e es ih =>
    rcases List.forall_mem_cons.mp h with ⟨he, hes⟩
    rcases List.mem_append.mp hline with hline | hline
    · rcases he with htick | ⟨x, hx, hmsg⟩
      · exact ageless_tick htick hline
      · exact ageless_packet hmsg hx.length_le hline
    · exact ih hes hline

/-- **Run lemma**, for the keys: the packets are the edges, and nothing else changes a key. -/
lemma held_foldl (h : OnlyScript txt es) {xs : List (Cmd × List Char)}
    (hxs : es.filterMap packetOf = xs.map fun x => plainMsg x.1 x.2)
    (hlen : ∀ x ∈ xs, (utf8 x.2).length ≤ 5) {s : KeyState}
    (hstamp : ∀ u, (s.keymeta u).lastSnapshotNs = 0) (u : UInt8) :
    held (es.foldl (step args) s) u = xs.foldl (heldAfter u) (held s u) := by
  induction es generalizing xs s with
  | nil =>
    obtain rfl : xs = [] := List.map_eq_nil_iff.mp hxs.symm
    rfl
  | cons e es ih =>
    rcases List.forall_mem_cons.mp h with ⟨htick | ⟨y, -, hmsg⟩, hes⟩
    · rw [List.filterMap_cons_none (by rw [packetOf, htick])] at hxs
      rcases @QuicOnly.tick_step args e htick s hstamp with ⟨hheld, hstamp', -⟩
      rw [List.foldl_cons, ih hes hxs hlen hstamp', hheld u]
    · rw [List.filterMap_cons_some (by rw [packetOf, hmsg])] at hxs
      rcases List.map_eq_cons_iff.mp hxs.symm with ⟨x, xs, rfl, hx, hrest⟩
      rcases List.forall_mem_cons.mp hlen with ⟨hxlen, hlen⟩
      rw [← hx] at hmsg
      rcases @packet_step args s e x.1 x.2 hmsg hxlen with ⟨hheld, hstamp'⟩
      rw [List.foldl_cons, List.foldl_cons,
        ih hes hrest.symm hlen (fun v => (hstamp' v).trans (hstamp v)), hheld u]

lemma heldAfter_of_ne {u : UInt8} {x : Cmd × List Char} (h : heard x.2 ≠ u) (was : Bool) :
    heldAfter u was x = was := if_neg fun hu => h hu.2.symm

/-- A key is released again if none of its releases is lost. -/
lemma foldl_heldAfter_script {u : UInt8} {loss : ℚ} {turns : List Turn}
    (hscript : turns.map Turn.event = scriptFromText txt)
    (hkept : ∀ t ∈ turns, t.lost loss → t.event.2.1 = .up → heard t.event.2.2 ≠ u) :
    ((turns.filter fun t => ¬t.lost loss).map fun t => t.event.2).foldl (heldAfter u) false
      = false := by
  induction txt generalizing turns with
  | nil =>
    obtain rfl : turns = [] := List.map_eq_nil_iff.mp hscript
    rfl
  | cons ch txt ih =>
    rw [scriptFromText, List.flatMap_cons, List.cons_append, List.cons_append,
      List.nil_append] at hscript
    rcases List.map_eq_cons_iff.mp hscript with ⟨x, turns, rfl, hx, hscript⟩
    rcases List.map_eq_cons_iff.mp hscript with ⟨y, turns, rfl, hy, hscript⟩
    have hrest := ih hscript fun t ht => hkept t (by simp [ht])
    -- what the two events leave of a key that is not held
    have hpair : (([x, y].filter fun t => ¬t.lost loss).map fun t => t.event.2).foldl
        (heldAfter u) false = false := by
      by_cases hu : heard (keyOfChar ch) = u
      · have hy' : ¬y.lost loss := fun hlost => hkept y (by simp) hlost (by rw [hy]) (by rwa [hy])
        by_cases hx' : x.lost loss <;> by_cases h0 : u = 0 <;>
          simp [hx', hy', hx, hy, heldAfter, hu, h0]
      · have hne : ∀ z : Turn, z ∈ [x, y] → heard z.event.2.2 ≠ u := by
          intro z hz
          rcases List.mem_pair.mp hz with rfl | rfl
          · rwa [hx]
          · rwa [hy]
        by_cases hx' : x.lost loss <;> by_cases hy' : y.lost loss <;>
          simp [hx', hy', heldAfter_of_ne (hne x (by simp)), heldAfter_of_ne (hne y (by simp))]
    have hsplit : (x :: y :: turns).filter (fun t => ¬t.lost loss)
        = ([x, y].filter fun t => ¬t.lost loss) ++ turns.filter fun t => ¬t.lost loss :=
      List.filter_append [x, y] turns
    rw [hsplit, List.map_append, List.foldl_append, hpair]
    exact hrest

/-- The events of the script have its keys. -/
lemma fromScript_of_mem {turns : List Turn} (hscript : turns.map Turn.event = scriptFromText txt)
    {t : Turn} (ht : t ∈ turns) : FromScript txt t.event.2 := by
  have hmem : t.event ∈ scriptFromText txt := by
    rw [← hscript]
    exact List.mem_map_of_mem ht
  rcases List.mem_flatMap.mp hmem with ⟨ch, hch, hevent⟩
  refine ⟨ch, hch, ?_⟩
  rcases List.mem_pair.mp hevent with h | h <;> rw [h]

end Script

/-- **Edges without timestamps have no age.** Whatever packets of the script arrive, in any
order and however often, with rounds of the monitor between them, none is dropped and every
latency is 0, whatever the deadline. If those that are sent arrive in their order, a key stays
pressed only if a release of it was lost. -/
theorem plainUdp {args : Args} {txt : List Char} {loss : ℚ} {turns : List Turn}
    (hscript : turns.map Turn.event = scriptFromText txt) {es : List Event}
    (harrived : ∀ e ∈ es, e.msg = .tick ∨ ∃ data ∈ sendUdp loss turns, e.msg = .datagram data) :
    (∀ line ∈ logOf args {} es, Ageless line)
      ∧ (es.filterMap packetOf = sendUdp loss turns → ∀ u ∈ (run args es).pressed,
        ∃ t ∈ turns, t.lost loss ∧ t.event.2.1 = .up ∧ heard t.event.2.2 = u) := by
  have honly : OnlyScript txt es := by
    intro e he
    rcases harrived e he with htick | ⟨data, hdata, hmsg⟩
    · exact Or.inl htick
    · rcases List.mem_map.mp hdata with ⟨t, ht, rfl⟩
      exact Or.inr ⟨_, fromScript_of_mem hscript (List.mem_of_mem_filter ht), hmsg⟩
  refine ⟨fun line hline => ageless_logOf honly hline, fun hes u hu => ?_⟩
  by_contra hnone
  have hkept : ∀ t ∈ turns, t.lost loss → t.event.2.1 = .up → heard t.event.2.2 ≠ u :=
    fun t ht hlost hup hheard => hnone ⟨t, ht, hlost, hup, hheard⟩
  have hlen : ∀ x ∈ (turns.filter fun t => ¬t.lost loss).map fun t => t.event.2,
      (utf8 x.2).length ≤ 5 := by
    intro x hx
    rcases List.mem_map.mp hx with ⟨t, ht, rfl⟩
    exact (fromScript_of_mem hscript (List.mem_of_mem_filter ht)).length_le
  have hheld := @held_foldl args txt es honly _ (by rw [hes, sendUdp, List.map_map]; rfl) hlen
    {} (fun _ => rfl) u
  rw [show held {} u = false from rfl, foldl_heldAfter_script hscript hkept] at hheld
  exact of_decide_eq_false hheld hu

/-- `a` is typed, and its release is lost. -/
def lostUp : List Turn :=
  [⟨(10, .down, ['a']), 3 / 4⟩, ⟨(20, .up, ['a']), 1 / 4⟩]

/-- The packet of its press, and a round. -/
def lateDown : List Event :=
  [{ msg := .datagram (plainMsg .down ['a']), now := 7000000000, ord := .back _ },
    tickAt 7100000000]

/-- The key that is left pressed shows the loss. -/
theorem plainUdp_lostUp :
    ∃ t ∈ lostUp, t.lost (1 / 2) ∧ t.event.2.1 = .up ∧ heard t.event.2.2 = 4 := by
  have hscript : lostUp.map Turn.event = scriptFromText ['a'] := by decide
  have hsent : sendUdp (1 / 2) lostUp = [plainMsg .down ['a']] := by decide +kernel
  have harrived : ∀ e ∈ lateDown,
      e.msg = .tick ∨ ∃ data ∈ sendUdp (1 / 2) lostUp, e.msg = .datagram data := by
    intro e he
    rw [hsent]
    rcases List.mem_pair.mp he with rfl | rfl
    · exact Or.inr ⟨_, List.mem_singleton_self _, rfl⟩
    · exact Or.inl rfl
  exact (@plainUdp {} _ _ _ hscript _ harrived).2 (by rw [hsent]; rfl) 4 (by decide +kernel)

end QuicKeys.Client.PlainUdp
