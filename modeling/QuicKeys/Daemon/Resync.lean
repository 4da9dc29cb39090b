import QuicKeys.Daemon.Handlers
import QuicKeys.Daemon.HidSocket

/-!
# Reports that are lost, and reconnection

Handlers run to their end one after the other, and every connect and every send may fail.
A report that cannot be sent is dropped; the next one that is sent describes the whole
state, so it makes the loss good. But the heartbeat of the receive loop also reconnects,
and sends nothing.
-/

namespace QuicKeys.Daemon

/-- One handler that ran to its end: its event, whether its connect and its send succeed
if they are tried, and the clock reading and the connect of the heartbeat behind it. -/
structure Turn where
  event : Event
  connects : Bool
  sends : Bool
  beatNow : ℤ
  beatConnects : Bool

/-- What persists between handlers; `lastBeat` is in nanoseconds. -/
structure Main where
  keys : KeyState := {}
  hid : HidSocket := {}
  lastBeat : ℤ

/-- A handler with the report it sends. -/
def answer (args : Args) (m : Main) (t : Turn) : Main :=
  let o := handle args m.keys t.event
  { m with
    keys := o.state
    hid :=
      if o.emit then
        sendReport t.connects (if t.sends then .full else .error) (reportOf o.state) m.hid
      else m.hid }

/-- `args.verbose && duration_cast<seconds>(now - last_beat).count() >= 2`, where the
receive loop gets that far. -/
def beatDue (args : Args) (m : Main) (t : Turn) : Bool :=
  match t.event.msg with
  | .datagram data =>
    reachesEnd args t.event.now data && args.verbose
      && decide (2 ≤ (t.beatNow - m.lastBeat).tdiv (10 ^ 9))
  | _ => false

/-- The heartbeat prints whether `ensure_connected` succeeds. -/
def heartbeat (m : Main) (t : Turn) : Main :=
  { m with hid := (ensureConnected t.beatConnects m.hid).2, lastBeat := t.beatNow }

/-- One handler and, in the receive loop, the heartbeat. -/
def turn (args : Args) (m : Main) (t : Turn) : Main :=
  -- the heartbeat comes behind the report of the handler
  let m := answer args m t
  if beatDue args m t then heartbeat m t else m

/-- The handlers of a run, from the start of the daemon at `beat₀`. -/
def runTurns (args : Args) (beat₀ : ℤ) (ts : List Turn) : Main :=
  ts.foldl (turn args) { lastBeat := beat₀ }

/-! ## The property -/

/-- The same keys are held, with the same modifiers. -/
def SameKeys (s s' : KeyState) : Prop :=
  (∀ u, u ∈ s'.pressed ↔ u ∈ s.pressed) ∧ s'.modifiers = s.modifiers

/-- Some handler has changed the keys or the modifiers. -/
def Changed (args : Args) (ts : List Turn) : Prop :=
  ∃ pre t post, ts = pre ++ t :: post
    ∧ ¬SameKeys (run args (pre.map (·.event))) (step args (run args (pre.map (·.event))) t.event)

/-- If the socket is connected, a report was accepted on this connection, and the last one
was built from the current state. -/
def Resynced (m : Main) : Prop :=
  ∀ sent, m.hid.fd = some sent → sent.getLast?.map (·.report) = some (reportOf m.keys)

/-- The heartbeat behind the handler finds the socket closed and connects it. -/
def HeartbeatOpens (args : Args) (m : Main) (t : Turn) : Prop :=
  beatDue args (answer args m t) t = true ∧ (answer args m t).hid.fd = none
    ∧ t.beatConnects = true

/-! ## One turn -/

section Turn

variable {args : Args} {m : Main} {t : Turn}

lemma turn_keys : (turn args m t).keys = step args m.keys t.event := by
  unfold turn
  dsimp only
  split <;> rfl

/-- The key state is that of the handlers alone. -/
lemma runTurns_keys (args : Args) (beat₀ : ℤ) (ts : List Turn) :
    (runTurns args beat₀ ts).keys = run args (ts.map (·.event)) := by
  induction ts using List.reverseRecOn with
  | nil => rfl
  | append_singleton ts t ih =>
    rw [runTurns, List.foldl_append, List.map_append, List.map_singleton, run_concat, ← ih]
    exact turn_keys

lemma runTurns_concat (args : Args) (beat₀ : ℤ) (ts : List Turn) (t : Turn) :
    runTurns args beat₀ (ts ++ [t]) = turn args (runTurns args beat₀ ts) t := by
  rw [runTurns, List.foldl_append]
  rfl

lemma not_changed_nil (args : Args) : ¬Changed args [] := by
  intro hchanged
  rcases hchanged with ⟨pre, t, post, h, -⟩
  simp at h

lemma changed_concat {ts : List Turn} (h : Changed args (ts ++ [t])) :
    Changed args ts ∨ ¬SameKeys (run args (ts.map (·.event)))
      (step args (run args (ts.map (·.event))) t.event) := by
  rcases h with ⟨pre, t', post, hts, hchange⟩
  rcases List.eq_nil_or_concat' post with rfl | ⟨post', t'', rfl⟩
  · rcases List.append_inj' hts rfl with ⟨rfl, ht⟩
    obtain rfl : t = t' := by simpa using ht
    exact Or.inr hchange
  · rw [← List.cons_append, ← List.append_assoc] at hts
    rcases List.append_inj' hts rfl with ⟨hts', -⟩
    exact Or.inl ⟨pre, t', post', hts', hchange⟩

/-- A handler that sends leaves the socket closed or in agreement with its state. -/
lemma resynced_answer_of_emit (h : (handle args m.keys t.event).emit = true) :
    Resynced (answer args m t) := by
  intro sent hsent
  simp only [answer, h, if_true] at hsent
  rcases sendReport_fd t.connects m.hid (reportOf (handle args m.keys t.event).state) t.sends
    with hnone | ⟨sent', hsent'⟩
  · rw [hnone] at hsent
    cases hsent
  · obtain rfl : sent' ++ [⟨_, 8, by decide, by decide⟩] = sent :=
      Option.some.inj (hsent'.symm.trans hsent)
    rw [List.getLast?_concat, Option.map_some]
    rfl

/-- A handler that sends nothing leaves both sides as they are. -/
lemma resynced_answer_of_not_emit (h : (handle args m.keys t.event).emit = false) :
    SameKeys m.keys (step args m.keys t.event)
      ∧ (Resynced m → Resynced (answer args m t)) := by
  rcases quiet_of_not_emit h with ⟨hpressed, hmods⟩
  refine ⟨⟨fun u => by rw [hpressed], hmods⟩, fun hm sent hsent => ?_⟩
  simp only [answer, h, Bool.false_eq_true, if_false] at hsent
  rw [hm sent hsent]
  exact congrArg some (reportOf_congr hpressed hmods).symm

/-- The heartbeat keeps the agreement unless it opens a connection, and breaks it then. -/
lemma resynced_turn_iff (h : Resynced (answer args m t)) :
    Resynced (turn args m t) ↔ ¬HeartbeatOpens args m t := by
  unfold turn HeartbeatOpens
  generalize answer args m t = m' at h ⊢
  dsimp only
  by_cases hdue : beatDue args m' t = true
  · rw [if_pos hdue]
    cases hfd : m'.hid.fd with
    | none =>
      cases hconn : t.beatConnects with
      | true =>
        have hopen : (heartbeat m' t).hid.fd = some [] := by
          simp [heartbeat, ensureConnected, hfd, hconn]
        refine iff_of_false (fun hr => ?_) (by simp [hdue])
        simpa using hr [] hopen
      | false =>
        refine iff_of_true (fun sent hsent => ?_) (by simp)
        simp [heartbeat, ensureConnected, hfd, hconn] at hsent
    | some sent =>
      have hsame : (heartbeat m' t).hid = m'.hid := by
        simp only [heartbeat]
        rw [ensureConnected_of_isSome _ _ (by rw [hfd]; rfl)]
      refine iff_of_true (fun sent' hsent' => ?_) (by simp)
      rw [hsame] at hsent'
      exact h sent' hsent'
  · rw [if_neg hdue]
    exact iff_of_true h fun hopens => hdue hopens.1

end Turn

/-! ## Runs -/

/-- **Step lemma.** -/
lemma resynced_concat_iff {args : Args} {beat₀ : ℤ} {ts : List Turn} {t : Turn}
    (h : Changed args ts → Resynced (runTurns args beat₀ ts)) :
    (Changed args (ts ++ [t]) → Resynced (runTurns args beat₀ (ts ++ [t])))
      ↔ (Changed args (ts ++ [t]) → ¬HeartbeatOpens args (runTurns args beat₀ ts) t) := by
  refine imp_congr_right fun hchanged => ?_
  rw [runTurns_concat]
  refine resynced_turn_iff ?_
  cases hemit : (handle args (runTurns args beat₀ ts).keys t.event).emit with
  | true => exact resynced_answer_of_emit hemit
  | false =>
    rcases resynced_answer_of_not_emit hemit with ⟨hsame, hkeep⟩
    refine hkeep (h ((changed_concat hchanged).resolve_right ?_))
    rw [← runTurns_keys args beat₀]
    exact not_not_intro hsame

/-- **Exactly the reconnecting heartbeats leave the guest behind**: at every point of a run
at which something has changed, a connected socket has last got the current state, iff no
heartbeat opens a connection once something has changed. -/
theorem resynced_iff (args : Args) (beat₀ : ℤ) (ts : List Turn) :
    (∀ pre, pre <+: ts → Changed args pre → Resynced (runTurns args beat₀ pre))
      ↔ ∀ pre t post, ts = pre ++ t :: post → Changed args (pre ++ [t]) →
        ¬HeartbeatOpens args (runTurns args beat₀ pre) t :=
  Runs.forall_prefix_iff (I := fun pre => Changed args pre → Resynced (runTurns args beat₀ pre))
    (fun h => absurd h (not_changed_nil args)) (fun _ _ h => resynced_concat_iff h) ts

/-! ## A heartbeat that reconnects -/

def verboseArgs : Args := { verbose := true }

/-- A datagram without a key: it changes nothing, and the loop body runs to its end. -/
def keyless (now : UInt64) : Event where
  msg := .datagram [0x78]
  now
  ord := IterOrder.front UInt8

/-- A snapshot of `a` whose report is lost because the connect fails. -/
def lostSnapshot : Turn where
  event := snapshotA 1
  connects := false
  sends := true
  beatNow := 0
  beatConnects := false

/-- A datagram 2 s after the start, whose heartbeat connects. -/
def connectingBeat : Turn where
  event := keyless 2
  connects := true
  sends := true
  beatNow := 2000000000
  beatConnects := true

lemma udpVerdict_keyless : udpVerdict verboseArgs 2 [0x78] = .ignore := by
  have htok : tokenize [0x78] = [[0x78]] := by
    rw [tokenize_eq_words]
    decide
  rw [udpVerdict, udpFields, htok]
  dsimp only
  rw [if_neg (by decide)]
  dsimp only
  unfold udpCommand
  rw [if_neg (by decide +kernel)]
  rfl

/-- The guest has not got the press, although the socket is connected again. -/
theorem not_resynced_connectingBeat :
    Changed verboseArgs [lostSnapshot, connectingBeat]
      ∧ ¬Resynced (runTurns verboseArgs 0 [lostSnapshot, connectingBeat]) := by
  constructor
  · refine ⟨[], lostSnapshot, [connectingBeat], rfl, fun h => ?_⟩
    exact absurd ((h.1 4).mp (by decide)) (by decide)
  · have hclosed : (runTurns verboseArgs 0 [lostSnapshot]).hid.fd = none := rfl
    have hanswer : answer verboseArgs (runTurns verboseArgs 0 [lostSnapshot]) connectingBeat
        = runTurns verboseArgs 0 [lostSnapshot] := by
      simp only [answer, connectingBeat, keyless, handle, handleDatagram]
      rw [show ([0x78] : List UInt8).take bufSize = [0x78] from rfl, udpVerdict_keyless]
      rfl
    have hres : Resynced (answer verboseArgs (runTurns verboseArgs 0 [lostSnapshot])
        connectingBeat) := by
      rw [hanswer]
      intro sent hsent
      rw [hclosed] at hsent
      cases hsent
    intro h
    refine (resynced_turn_iff hres).mp h ⟨?_, by rw [hanswer, hclosed], rfl⟩
    rw [hanswer]
    simp only [beatDue, connectingBeat, keyless, reachesEnd]
    rw [show ([0x78] : List UInt8).take bufSize = [0x78] from rfl, udpVerdict_keyless]
    decide +kernel

end QuicKeys.Daemon
