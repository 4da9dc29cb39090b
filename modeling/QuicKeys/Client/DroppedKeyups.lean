import QuicKeys.Client.Workload
import QuicKeys.Daemon.LogCounts

/-!
# Dropped keyups and their healing

The healing experiment types a text, leaves the up edges of one key out (`--drop-keyup`) and
loses others to the emulated network, but never a keyup marker. What stays pressed is
released by the next snapshot, with one `[heal]` line for every key, and the time it logs
runs from the last marker of the key.

The datagrams arrive in the order in which they are sent, as they do without jitter; rounds
of the monitor thread come anywhere between them.
-/

namespace QuicKeys.Client

open Ascii Daemon Registers

/-! ## The sender -/

/-- An event, with the moments of its sending and processing, and what `drop` says about its
packet. -/
structure Sent where
  event : ScriptEvent
  moment : Moment
  lost : Bool

/-- The packet of an event, when it is processed. -/
def Sent.deliver (x : Sent) : Event := Client.deliver x.event x.moment

/-- `cmd == "up" and drop_keyup_for and key == drop_keyup_for`; the empty name is no key. -/
def dropsKeyup (dropKeyupFor : List Char) (e : ScriptEvent) : Bool :=
  e.cmd = .up && dropKeyupFor ≠ [] && e.key = dropKeyupFor

/-- `udp_sender`: what reaches the daemon. Markers are enqueued as reliable. -/
def udpSender (dropKeyupFor : List Char) (xs : List Sent) : List Sent :=
  xs.filter fun x => !dropsKeyup dropKeyupFor x.event && (x.event.isMarker || !x.lost)

/-- What a marker says: the stamp of the sender, or the clock when there is none. -/
def Sent.markNs (x : Sent) : UInt64 :=
  if x.moment.tNs = 0 then x.moment.now else x.moment.tNs

/-- The marker of each usage after an event was sent. -/
def remark (t : UInt8 → UInt64) (x : Sent) : UInt8 → UInt64 :=
  if x.event.cmd = .mup then Function.update t (heard x.event.key) x.markNs else t

/-- The last marker of each usage. -/
def lastMarkNs (xs : List Sent) : UInt8 → UInt64 := xs.foldl remark fun _ => 0

/-! ## Markers of pressed keys -/

/-- Every pressed key other than `k` has been marked since, last at `t`. -/
def MarkedBut (k : UInt8) (s : KeyState) (t : UInt8 → UInt64) : Prop :=
  0 ∉ s.pressed ∧ ∀ u ∈ s.pressed, u ≠ k → (s.keymeta u).upMarkerNs = some (t u)

section Steps

variable {args : Args} {s : KeyState} {t : UInt8 → UInt64} {k : UInt8} {x : Sent}

/-- Zero is no key, so it makes no exception. -/
lemma MarkedBut.of_zero (h : MarkedBut 0 s t) (k : UInt8) : MarkedBut k s t := by
  refine ⟨h.1, fun u hu _ => h.2 u hu fun h0 => ?_⟩
  rw [h0] at hu
  exact h.1 hu

/-- A key the daemon does not know changes nothing. -/
lemma step_deliver_of_unheard (hdl : args.deadlineMs ≤ 0) (hlen : (utf8 x.event.key).length ≤ 5)
    (h0 : heard x.event.key = 0) : step args s x.deliver = s := by
  rw [step_eq, Sent.deliver, effectOf_deliver hdl hlen, if_pos h0]
  rfl

/-- An edge leaves the markers of the other keys. -/
lemma MarkedBut.edge (hdl : args.deadlineMs ≤ 0) (hlen : (utf8 x.event.key).length ≤ 5)
    (down : Bool) (hcmd : x.event.cmd = edgeCmd down) (h : MarkedBut 0 s t) :
    MarkedBut (heard x.event.key) (step args s x.deliver) t := by
  by_cases h0 : heard x.event.key = 0
  · rw [step_deliver_of_unheard hdl hlen h0, h0]
    exact h
  have heff : effectOf args x.deliver = .edge none down (heard x.event.key) := by
    rw [Sent.deliver, effectOf_deliver hdl hlen, if_neg h0, hcmd]
    cases down <;> rfl
  have hmem : ∀ u ≠ heard x.event.key,
      u ∈ (step args s x.deliver).pressed ↔ u ∈ s.pressed := by
    intro u hne
    rw [mem_pressed_step, writeOf, heff]
    simp [Effect.write, held, hne]
  refine ⟨mt (hmem 0 (Ne.symm h0)).mp h.1, fun u hu hne => ?_⟩
  rw [keymeta_step, heff, Effect.entry, if_neg hne]
  exact (h.of_zero _).2 u ((hmem u hne).mp hu) hne

/-- A release needs no marker. -/
lemma MarkedBut.up (hdl : args.deadlineMs ≤ 0) (hlen : (utf8 x.event.key).length ≤ 5)
    (hcmd : x.event.cmd = .up) (h : MarkedBut 0 s t) :
    MarkedBut 0 (step args s x.deliver) t := by
  have hedge : MarkedBut (heard x.event.key) (step args s x.deliver) t :=
    h.edge hdl hlen false hcmd
  refine ⟨hedge.1, fun u hu h0 => hedge.2 u hu fun hkey => ?_⟩
  rw [Sent.deliver, mem_step_deliver hdl hlen, ← hkey, if_pos ⟨h0, rfl⟩, hcmd] at hu
  exact hu

/-- A marker marks its key. -/
lemma MarkedBut.mark (hdl : args.deadlineMs ≤ 0) (hlen : (utf8 x.event.key).length ≤ 5)
    (hcmd : x.event.cmd = .mup) (h : MarkedBut (heard x.event.key) s t) :
    MarkedBut 0 (step args s x.deliver) (remark t x) := by
  by_cases h0 : heard x.event.key = 0
  · rw [step_deliver_of_unheard hdl hlen h0]
    refine ⟨h.1, fun u hu hne => ?_⟩
    rw [remark, if_pos hcmd, h0, Function.update_of_ne hne]
    exact h.2 u hu (by rwa [h0])
  have heff : effectOf args x.deliver = .mark (heard x.event.key) x.markNs := by
    rw [Sent.deliver, effectOf_deliver hdl hlen, if_neg h0, hcmd, Sent.markNs]
  have hmem : ∀ u, u ∈ (step args s x.deliver).pressed ↔ u ∈ s.pressed := by
    intro u
    rw [mem_pressed_step, writeOf, heff]
    simp [Effect.write, held]
  refine ⟨mt (hmem 0).mp h.1, fun u hu _ => ?_⟩
  rw [keymeta_step, heff, Effect.entry, remark, if_pos hcmd]
  by_cases hne : u = heard x.event.key
  · rw [if_pos hne, hne, Function.update_self]
  · rw [if_neg hne, Function.update_of_ne hne]
    exact h.2 u ((hmem u).mp hu) hne

end Steps

/-! ## Typing a text -/

section Typed

variable {args : Args} {dropKeyupFor : List Char} {keyDelayMs : ℚ}

/-- **Run lemma, character by character.** Whatever edges are missing, between the characters
every pressed key has been marked since it was pressed. -/
lemma markedBut_typed (hdl : args.deadlineMs ≤ 0) {chs : List Char} {carry : ℚ} {xs : List Sent}
    (hxs : xs.map Sent.event = typed keyDelayMs carry chs) {s : KeyState} {t : UInt8 → UInt64}
    (h : MarkedBut 0 s t) :
    MarkedBut 0 (((udpSender dropKeyupFor xs).map Sent.deliver).foldl (step args) s)
      (xs.foldl remark t) := by
  induction chs generalizing carry xs s t with
  | nil =>
    obtain rfl : xs = [] := List.map_eq_nil_iff.mp hxs
    exact h
  | cons ch chs ih =>
    rw [typed] at hxs
    rcases List.map_eq_cons_iff.mp hxs with ⟨x, xs, rfl, hx, hxs⟩
    rcases List.map_eq_cons_iff.mp hxs with ⟨y, xs, rfl, hy, hxs⟩
    rcases List.map_eq_cons_iff.mp hxs with ⟨z, xs, rfl, hz, hxs⟩
    have hlen : (utf8 (keyOfChar ch)).length ≤ 5 := length_utf8_keyOfChar ch
    have hdown : MarkedBut (heard (keyOfChar ch)) (step args s x.deliver) t := by
      have hedge := h.edge (x := x) hdl (by rwa [hx]) true (by rw [hx]; rfl)
      rwa [hx] at hedge
    have hskip : MarkedBut (heard (keyOfChar ch)) s t := h.of_zero _
    -- the marker is always there
    have hmark : ∀ s', MarkedBut (heard (keyOfChar ch)) s' t →
        MarkedBut 0 (step args s' y.deliver) (remark t y) := by
      intro s' h'
      exact MarkedBut.mark hdl (by rwa [hy]) (by rw [hy]) (by rwa [hy])
    have hup : ∀ s', MarkedBut 0 s' (remark t y) →
        MarkedBut 0 (step args s' z.deliver) (remark t y) := by
      intro s' h'
      exact h'.up hdl (by rwa [hz]) (by rw [hz])
    have hremark : (x :: y :: z :: xs).foldl remark t = xs.foldl remark (remark t y) := by
      simp [remark, hx, hz]
    rw [hremark, udpSender, List.filter_cons, List.filter_cons_of_pos (by simp [hy, dropsKeyup]),
      List.filter_cons]
    split
    · split
      · exact ih hxs (hup _ (hmark _ hdown))
      · exact ih hxs (hmark _ hdown)
    · split
      · exact ih hxs (hup _ (hmark _ hskip))
      · exact ih hxs (hmark _ hskip)

/-- What a character says about `u`, if none of its packets is lost. -/
def charWrite (dropKeyupFor : List Char) (u : UInt8) : HistoryWrite Char Bool := fun _ ch =>
  if heard (keyOfChar ch) ≠ 0 ∧ u = heard (keyOfChar ch) then some (keyOfChar ch = dropKeyupFor)
  else none

/-- Whether `u` is held after a character of which no packet was lost. -/
def heldAfterChar (dropKeyupFor : List Char) (u : UInt8) (was : Bool) (ch : Char) : Bool :=
  if heard (keyOfChar ch) ≠ 0 ∧ u = heard (keyOfChar ch) then keyOfChar ch = dropKeyupFor
  else was

/-- **Run lemma, without loss.** -/
lemma held_typed (hdl : args.deadlineMs ≤ 0) {chs : List Char} {carry : ℚ} {xs : List Sent}
    (hxs : xs.map Sent.event = typed keyDelayMs carry chs) (hlost : ∀ x ∈ xs, x.lost = false)
    (s : KeyState) (u : UInt8) :
    held (((udpSender dropKeyupFor xs).map Sent.deliver).foldl (step args) s) u
      = chs.foldl (heldAfterChar dropKeyupFor u) (held s u) := by
  induction chs generalizing carry xs s with
  | nil =>
    obtain rfl : xs = [] := List.map_eq_nil_iff.mp hxs
    rfl
  | cons ch chs ih =>
    rw [typed] at hxs
    rcases List.map_eq_cons_iff.mp hxs with ⟨x, xs, rfl, hx, hxs⟩
    rcases List.map_eq_cons_iff.mp hxs with ⟨y, xs, rfl, hy, hxs⟩
    rcases List.map_eq_cons_iff.mp hxs with ⟨z, xs, rfl, hz, hxs⟩
    have hlen : (utf8 (keyOfChar ch)).length ≤ 5 := length_utf8_keyOfChar ch
    have hstep : ∀ (w : Sent) (s' : KeyState), w.event.key = keyOfChar ch →
        (u ∈ (step args s' w.deliver).pressed
          ↔ if heard (keyOfChar ch) ≠ 0 ∧ u = heard (keyOfChar ch)
            then w.event.cmd.leaves (u ∈ s'.pressed) else u ∈ s'.pressed) := by
      intro w s' hw
      rw [Sent.deliver, mem_step_deliver hdl (by rwa [hw]), hw]
    have hkeep : ∀ w ∈ xs, w.lost = false := fun w hw => hlost w (by simp [hw])
    have hz' : z.lost = false := hlost z (by simp)
    have hx' : x.lost = false := hlost x (by simp)
    rw [udpSender, List.filter_cons_of_pos (by simp [hx, hx', dropsKeyup]),
      List.filter_cons_of_pos (by simp [hy, dropsKeyup])]
    -- the up edge is sent unless its key is the one to drop
    by_cases hdrop : keyOfChar ch = dropKeyupFor
    · have hskip : dropsKeyup dropKeyupFor z.event = true := by
        rw [dropsKeyup, hz, ← hdrop]
        simp [keyOfChar_ne_nil]
      rw [List.filter_cons_of_neg (by simp [hskip])]
      refine (ih hxs hkeep _).trans (congrArg (chs.foldl _ ·) ?_)
      rw [held, held, heldAfterChar, Bool.eq_iff_iff, decide_eq_true_eq,
        hstep y _ (by rw [hy]), hstep x _ (by rw [hx]), hx, hy]
      by_cases hu : heard (keyOfChar ch) ≠ 0 ∧ u = heard (keyOfChar ch)
      · simp only [if_pos hu, Cmd.leaves]
        exact iff_of_true trivial (decide_eq_true hdrop)
      · simp only [if_neg hu, decide_eq_true_eq]
    · rw [List.filter_cons_of_pos (by simp [hz, hz', dropsKeyup, hdrop])]
      refine (ih hxs hkeep _).trans (congrArg (chs.foldl _ ·) ?_)
      rw [held, held, heldAfterChar, Bool.eq_iff_iff, decide_eq_true_eq,
        hstep z _ (by rw [hz]), hstep y _ (by rw [hy]), hstep x _ (by rw [hx]), hx, hy, hz]
      by_cases hu : heard (keyOfChar ch) ≠ 0 ∧ u = heard (keyOfChar ch)
      · simp only [if_pos hu, Cmd.leaves, hdrop, decide_false, Bool.false_eq_true]
      · simp only [if_neg hu, decide_eq_true_eq]

/-- A key is left pressed iff the last character with its usage is the one to drop. -/
lemma foldl_heldAfterChar_iff (chs : List Char) (u : UInt8) :
    chs.foldl (heldAfterChar dropKeyupFor u) false = true
      ↔ LastWrite (charWrite dropKeyupFor u) chs true := by
  have h := eq_iff_lastWrite (w := charWrite dropKeyupFor u)
    (f := fun chs => chs.foldl (heldAfterChar dropKeyupFor u) false) (fun chs ch => ?_) chs true
  · exact h.trans (or_iff_left fun h0 => Bool.false_ne_true h0.1)
  · rw [List.foldl_append, List.foldl_cons, List.foldl_nil, charWrite, heldAfterChar]
    split <;> rfl

end Typed

/-! ## Rounds of the monitor thread -/

section Ticks

variable {args : Args}

/-- The states hold the same keys, equally marked, and no snapshot has stamped one. -/
structure EquallyMarked (s s' : KeyState) : Prop where
  pressed : s.pressed = s'.pressed
  markers : ∀ u, (s.keymeta u).upMarkerNs = (s'.keymeta u).upMarkerNs
  unstamped : ∀ u, (s.keymeta u).lastSnapshotNs = 0

/-- **Step lemma.** Datagrams act alike. -/
lemma EquallyMarked.datagram {s s' : KeyState} (h : EquallyMarked s s') {e : Event}
    {data : List UInt8} (hmsg : e.msg = .datagram data) :
    EquallyMarked (step args s e) (step args s' e) := by
  have hfrom := effectOf_from args e
  have hmeta := keymeta_step args s e
  have hmeta' := keymeta_step args s' e
  have hstamp := lastSnapshotNs_step args s e
  have hset := step_eq args s e
  have hset' := step_eq args s' e
  cases heff : effectOf args e with
  | snapshot mods keys =>
    rw [heff] at hfrom
    cases hfrom with
    | snapshot hsnap => rw [hmsg] at hsnap; cases hsnap
  | scan =>
    rw [heff] at hfrom
    cases hfrom with
    | scan htick => rw [hmsg] at htick; cases htick
  | none =>
    rw [heff] at hset hset'
    rw [hset, hset']
    exact h
  | mark usage tNs =>
    simp only [heff, Effect.entry] at hmeta hmeta' hstamp
    refine ⟨?_, fun u => ?_, fun u => (hstamp u).trans (h.unstamped u)⟩
    · rw [hset, hset', heff]
      exact h.pressed
    · rw [hmeta, hmeta']
      split
      · rfl
      · exact h.markers u
  | edge mods down usage =>
    simp only [heff, Effect.entry] at hmeta hmeta' hstamp
    refine ⟨?_, fun u => ?_, fun u => (hstamp u).trans (h.unstamped u)⟩
    · rw [hset, hset', heff]
      cases down <;> simp [Effect.apply, applyEdge, h.pressed]
    · rw [hmeta, hmeta']
      split
      · simp only [edgeMeta, h.markers u]
      · exact h.markers u

/-- **Step lemma.** A round finds no stamp, and releases nothing. -/
lemma EquallyMarked.tick {s s' : KeyState} (h : EquallyMarked s s') {e : Event}
    (htick : e.msg = .tick) : EquallyMarked (step args s e) s' := by
  have hexp : ∀ u, expired args e.now (s.keymeta u) = false := by
    intro u
    simp [expired, h.unstamped u]
  have hquiet : (handle args s e).emit = false := by
    rw [handle_of_tick htick, Bool.eq_false_iff]
    intro hemit
    rcases (watchdogTick_emit _ _ _).mp hemit with ⟨u, -, hu⟩
    rw [hexp u] at hu
    cases hu
  refine ⟨(quiet_of_not_emit hquiet).1.trans h.pressed, fun u => ?_, fun u => ?_⟩
  · rw [step, handle_of_tick htick, watchdogTick_keymeta, visitMeta, hexp u]
    split <;> exact h.markers u
  · rw [step, handle_of_tick htick, watchdogTick_keymeta, visitMeta, hexp u]
    split <;> exact h.unstamped u

/-- **Run lemma.** Rounds between datagrams do not matter. -/
lemma equallyMarked_of_filter {es ds : List Event}
    (hds : ∀ d ∈ ds, ∃ data, d.msg = .datagram data)
    (hes : es.filter (fun e => e.msg ≠ .tick) = ds) :
    EquallyMarked (run args es) (run args ds) := by
  subst hes
  induction es using List.reverseRecOn with
  | nil => exact ⟨rfl, fun _ => rfl, fun _ => rfl⟩
  | append_singleton es e ih =>
    rw [List.filter_append, run_concat] at *
    have ih' := ih fun d hd => hds d (List.mem_append_left _ hd)
    by_cases htick : e.msg = .tick
    · rw [List.filter_cons_of_neg (by simp [htick]), List.filter_nil, List.append_nil]
      exact ih'.tick htick
    · rw [List.filter_cons_of_pos (by simp [htick]), List.filter_nil] at hds ⊢
      rcases hds e (by simp) with ⟨data, hdata⟩
      rw [run_concat]
      exact ih'.datagram hdata

end Ticks

/-! ## The experiment -/

/-- Where every pressed key is marked, a snapshot logs each key that it does not contain. -/
lemma log_reconcile_of_marked {s : KeyState} {t : UInt8 → UInt64}
    (h : ∀ u ∈ s.pressed, (s.keymeta u).upMarkerNs = some (t u)) (now : UInt64) (mods : UInt8)
    (keys : UnorderedSet UInt8) :
    (reconcile now mods keys s).2
      = (s.pressed.toList.filter (· ∉ keys)).map fun u => .heal u (nsToMs (now - t u)) := by
  have hlines : ∀ l : List UInt8, (∀ u ∈ l, u ∈ s.pressed) →
      l.flatMap (fun u => healLine now keys u (s.keymeta u))
        = (l.filter (· ∉ keys)).map fun u => .heal u (nsToMs (now - t u)) := by
    intro l hl
    induction l with
    | nil => rfl
    | cons u l ih =>
      rcases List.forall_mem_cons.mp hl with ⟨hu, hrest⟩
      rw [List.flatMap_cons, ih hrest, healLine, h u hu]
      by_cases hkey : u ∈ keys <;> simp [hkey]
  rw [log_reconcile]
  exact hlines _ fun u hu => UnorderedSet.mem_toList.mp hu

section Experiment

variable {args : Args} {dropKeyupFor : List Char} {text : List Char} {repeats : ℕ}
  {keyDelayMs : ℚ} {xs : List Sent} {es : List Event} {e : Event} {mods : UInt8}
  {keys : UnorderedSet UInt8}

/-- What the daemon ran on: the packets of a text that were sent and not lost, in order, and
rounds of the monitor thread. -/
structure TypedRun (dropKeyupFor : List Char) (text : List Char) (repeats : ℕ) (keyDelayMs : ℚ)
    (xs : List Sent) (es : List Event) : Prop where
  script : xs.map Sent.event = workloadEvents text repeats keyDelayMs
  arrivals : es.filter (fun e => e.msg ≠ .tick) = (udpSender dropKeyupFor xs).map Sent.deliver

/-- **The healing experiment.** Whatever was typed, dropped and lost, the next snapshot leaves
its own keys pressed and logs every other key that was, once, with the time since the last
marker of the key. Without loss, the keys that were are those whose last character is the
one to drop. -/
theorem heals_dropped (hdl : args.deadlineMs ≤ 0)
    (h : TypedRun dropKeyupFor text repeats keyDelayMs xs es)
    (hsnap : effectOf args e = .snapshot mods keys) :
    (step args (run args es) e).pressed = keys
      ∧ (handle args (run args es) e).log
        = ((run args es).pressed.toList.filter (· ∉ keys)).map
          (fun u => .heal u (nsToMs (e.now - lastMarkNs xs u)))
      ∧ ((∀ x ∈ xs, x.lost = false) → ∀ u, u ∈ (run args es).pressed
        ↔ LastWrite (charWrite dropKeyupFor u) (repeated text repeats) true) := by
  have hscript := h.script
  rw [workloadEvents_eq] at hscript
  have hdatagrams : ∀ d ∈ (udpSender dropKeyupFor xs).map Sent.deliver,
      ∃ data, d.msg = .datagram data := by
    intro d hd
    rcases List.mem_map.mp hd with ⟨x, -, rfl⟩
    exact ⟨_, rfl⟩
  have hmarks : EquallyMarked (run args es)
      (run args ((udpSender dropKeyupFor xs).map Sent.deliver)) :=
    equallyMarked_of_filter hdatagrams h.arrivals
  have hmarked : MarkedBut 0 (run args ((udpSender dropKeyupFor xs).map Sent.deliver))
      (lastMarkNs xs) :=
    markedBut_typed hdl hscript ⟨List.not_mem_nil, fun u hu => absurd hu List.not_mem_nil⟩
  refine ⟨?_, ?_, fun hlost u => ?_⟩
  · rw [step_eq, hsnap]
    rfl
  · rw [log_of_snapshot hsnap]
    refine log_reconcile_of_marked (fun u hu => ?_) _ _ _
    rw [hmarks.pressed] at hu
    rw [hmarks.markers]
    refine hmarked.2 u hu fun h0 => ?_
    rw [h0] at hu
    exact hmarked.1 hu
  · have hheld : held (run args ((udpSender dropKeyupFor xs).map Sent.deliver)) u
        = (repeated text repeats).foldl (heldAfterChar dropKeyupFor u) false :=
      held_typed hdl hscript hlost {} u
    rw [hmarks.pressed, ← decide_eq_true_iff (p := u ∈ _), ← foldl_heldAfterChar_iff]
    exact hheld ▸ Iff.rfl

end Experiment

/-! ## The keyup of one key -/

/-- Two characters typed twice, and nothing lost. -/
def abab : List Sent := (workloadEvents ['a', 'b'] 2 10).map fun e => ⟨e, still 0, false⟩

/-- The packets without the up edges of `b`, and a round behind them. -/
def ababWithoutKeyup : List Event := (udpSender ['b'] abab).map Sent.deliver ++ [tickAt 2]

lemma typedRun_abab : TypedRun ['b'] ['a', 'b'] 2 10 abab ababWithoutKeyup where
  script := by
    rw [abab, List.map_map]
    exact List.map_id _
  arrivals := by
    rw [ababWithoutKeyup, List.filter_append, List.filter_eq_self.mpr, List.filter_cons_of_neg,
      List.filter_nil, List.append_nil]
    · simp [tickAt]
    · intro e he
      rcases List.mem_map.mp he with ⟨x, -, rfl⟩
      simp [Sent.deliver, deliver]

/-- The empty snapshot of the flush heals `b`, once. -/
theorem heals_dropped_abab :
    (.heal 0x05 (nsToMs (9 - lastMarkNs abab 0x05)) : LogLine)
      ∈ (handle { deadlineMs := 0 } (run { deadlineMs := 0 } ababWithoutKeyup)
        (snapshotEvent { seq := 1, tMs := 0 } ∅ 9 (IterOrder.front UInt8))).log := by
  have hhealed := heals_dropped (by decide) typedRun_abab
    (effectOf_snapshot { deadlineMs := 0 } { seq := 1, tMs := 0 } ∅ 9 (IterOrder.front UInt8))
  rw [hhealed.2.1]
  refine List.mem_map.mpr ⟨0x05, List.mem_filter.mpr ⟨?_, ?_⟩, rfl⟩
  · refine UnorderedSet.mem_toList.mpr ((hhealed.2.2 ?_ 0x05).mpr ?_)
    · intro x hx
      rcases List.mem_map.mp hx with ⟨e, -, rfl⟩
      rfl
    · have hheard : heard (keyOfChar 'b') = 0x05 := heard_of_lt (by decide) (by decide)
      refine ⟨['a', 'b', 'a'], 'b', [], rfl, ?_, fun a d b h => absurd h.symm (by simp)⟩
      rw [charWrite, if_pos (by rw [hheard]; exact ⟨by decide, rfl⟩)]
      rfl
  · rw [decide_eq_true_eq, mem_newPressed_bitmapFromPressed]
    exact fun h => UnorderedSet.not_mem_empty _ h.2

end QuicKeys.Client
