import QuicKeys.Client.Decoding
import QuicKeys.Client.OutboxBounds
import QuicKeys.Quic.Records

/-!
# Snapshots through the outbox and the stream

`quic_snapshot_sender` and `DelayedQuicOutbox` of `hybrid_run.py`. The outbox is the one for
UDP packets without reliable ones, and its run loop writes to a stream instead of a socket
(`drain` takes no time). What the daemon's server takes off the stream are the snapshots in the
order in which they were handed over, whatever the bytes were split into.
-/

namespace QuicKeys.Link

open Client Daemon Runs

/-! ## The sender -/

/-- One round of the loop of `quic_snapshot_sender`: the time of the call of `enqueue` and the
random numbers it meets, the pressed set, and the clock reading in the header. -/
structure Round where
  time : ℚ
  pressed : UnorderedSet ℤ
  tMs : UInt64 := 0
  dropDraw : ℚ := 0
  delayDraw : ℚ := 0

/-- The snapshot of a round; `seq` counts the rounds. From round `2 ^ 32` on it does not fit, and
`struct.pack` would raise. -/
def snap (r : Round) (seq : ℕ) : List UInt8 :=
  buildSnapshot { seq := UInt32.ofNat seq, tMs := r.tMs } (bitmapFromPressed r.pressed)

/-- `DelayedQuicOutbox.enqueue`, which knows no reliable packets. -/
def enqueueSnap (r : Round) (seq : ℕ) : Client.Input :=
  .enqueue r.time { payload := snap r seq, dropDraw := r.dropDraw, delayDraw := r.delayDraw }

/-- The calls of the sender; `seq` goes up with every round, sent or not. -/
def senderCalls (rounds : List Round) : List Client.Input :=
  rounds.zipIdx.map fun (r, seq) => enqueueSnap r seq

/-- The calls of `enqueue` among the inputs of an outbox. -/
def enqueues (is : List Client.Input) : List Client.Input :=
  is.filter fun
    | .enqueue .. => true
    | _ => false

/-- The rounds whose snapshot is not lost. -/
def keptRounds (imp : Impairment) (rounds : List Round) : List (Round × ℕ) :=
  rounds.zipIdx.filter fun (r, _) => !imp.drop r.dropDraw

/-- What the run loop has written to the stream. -/
def written (s : Outbox) : List UInt8 := (s.sent.map fun h => h.entry.payload).flatten

section Sender

variable {imp : Impairment} {rounds : List Round} {is : List Client.Input} {s : Outbox}

lemma length_snap (r : Round) (seq : ℕ) : (snap r seq).length = 52 := by
  rcases buildSnapshot_eq { seq := UInt32.ofNat seq, tMs := r.tMs } (bitmapFromPressed r.pressed)
    with ⟨hdr, hlen, heq⟩
  rw [snap, heq, List.length_append, List.length_cons, hlen, length_bitmapFromPressed]

/-- Only calls of `enqueue` bring packets. -/
lemma keptCalls_enqueues (imp : Impairment) (is : List Client.Input) :
    keptCalls imp (enqueues is) = keptCalls imp is := by
  induction is with
  | nil => rfl
  | cons i is ih =>
    cases i with
    | enqueue t c =>
      rw [enqueues, List.filter_cons_of_pos rfl, ← enqueues, keptCalls, keptCalls,
        List.filterMap_cons, List.filterMap_cons, ← keptCalls, ih, ← keptCalls]
    | close t => exact ih
    | loop => exact ih

/-- The calls that are kept are those of the rounds that are kept. -/
lemma keptCalls_eq (hcalls : enqueues is = senderCalls rounds) :
    keptCalls imp is = (keptRounds imp rounds).map fun (r, seq) => (r.time, snap r seq) := by
  rw [← keptCalls_enqueues, hcalls, keptCalls, senderCalls, List.filterMap_map, keptRounds,
    ← List.filterMap_eq_map, List.filterMap_filter]
  refine List.filterMap_congr fun x _ => ?_
  rcases x with ⟨r, seq⟩
  show (if imp.drop r.dropDraw then none else some (r.time, snap r seq))
    = if !imp.drop r.dropDraw then some (r.time, snap r seq) else none
  cases imp.drop r.dropDraw <;> rfl

/-- Rounds at different times make calls at different times. -/
lemma keptRounds_apart (htimes : rounds.Pairwise fun r r' => r.time ≠ r'.time) :
    (keptRounds imp rounds).Pairwise fun x y => x.1.time ≠ y.1.time := by
  have hfst : (rounds.zipIdx.map Prod.fst).Pairwise fun r r' => r.time ≠ r'.time := by
    rwa [List.zipIdx_map_fst]
  exact (List.pairwise_map.mp hfst).filter _

/-- While it fits, the sequence number of a snapshot is that of its round. -/
lemma seq_of_mem_keptRounds (hrounds : rounds.length ≤ 2 ^ 32) {x : Round × ℕ}
    (hx : x ∈ keptRounds imp rounds) : (beU32 ((snap x.1 x.2).drop 4)).toNat = x.2 := by
  have hlt := List.snd_lt_of_mem_zipIdx (List.mem_filter.mp hx).1
  have hdrop : (snap x.1 x.2).drop 4 = packU32 (UInt32.ofNat x.2)
      ++ (packU64 x.1.tMs ++ packU32 0 ++ bitmapFromPressed x.1.pressed) := rfl
  rw [hdrop, beU32_packU32]
  exact UInt32.toNat_ofNat_of_lt' (by rw [UInt32.size]; omega)

/-- Without jitter, the snapshots that are kept leave in the order of the rounds. -/
lemma payloads_drain (hjitter : imp.jitterMs = 0)
    (htimes : rounds.Pairwise fun r r' => r.time ≠ r'.time)
    (hcalls : enqueues is = senderCalls rounds) (hrun : Trace (outboxStep imp) {} is s)
    (hopen : Meets (outboxStep imp) {} (FindsOpen imp) is) :
    s.drain.sent.map (fun h => h.entry.payload)
      = (keptRounds imp rounds).map fun (r, seq) => snap r seq := by
  have haccepted := accepted_of_no_jitter hjitter is
  rw [keptCalls_eq hcalls, List.map_map] at haccepted
  have hapart : (accepted imp is).Pairwise fun d e => d.sendAt ≠ e.sendAt := by
    rw [haccepted, List.pairwise_map]
    exact (keptRounds_apart htimes).imp fun hne heq => hne (add_left_inj _ |>.mp heq)
  rw [sent_drain_of_no_jitter hjitter hrun hopen hapart, haccepted, List.map_map, List.map_map]
  rfl

end Sender

/-! ## The stream -/

/-- The records that the server takes off the stream are the packets, one by one. -/
lemma callsOf_written {s : Outbox} {ins : List Quic.Input} {srv : Quic.Server} {stream : ℕ}
    (hlen : ∀ h ∈ s.sent, h.entry.payload.length = 52)
    (hsrv : Trace (Quic.step (Quic.start 52)) {} ins srv)
    (hbytes : Quic.bytesOf stream ins = written s) :
    Quic.callsOf stream srv.log = s.sent.map fun h => h.entry.payload := by
  rcases (Quic.reassembles_run rfl hsrv stream).framed with ⟨pending, hframed⟩
  have hblocks := (hframed.records (by decide)).1
  rw [hbytes, written, ← List.append_nil (List.flatten _)] at hblocks
  rw [hblocks]
  refine (Blocks.blocks_flatten_append (by decide) (fun b hb => ?_) (by decide)).1
  rcases List.mem_map.mp hb with ⟨h, hh, rfl⟩
  exact hlen h hh

/-- The daemon holds exactly the keyboard usages of a set, and no modifiers. -/
structure HoldsSet (pressed : UnorderedSet ℤ) (s : KeyState) : Prop where
  mem_iff : ∀ u, u ∈ s.pressed ↔ isKeyboardUsage u = true ∧ usageInt u ∈ pressed
  modifiers : s.modifiers = 0

/-- The snapshot of a round, at any time, in any state. -/
lemma holdsSet_step {args : Args} {s : KeyState} {e : Event} {r : Round} {seq : ℕ}
    (he : e.msg = .snapshot (snap r seq)) : HoldsSet r.pressed (Daemon.step args s e) := by
  have heq : e = snapshotEvent { seq := UInt32.ofNat seq, tMs := r.tMs } r.pressed e.now e.ord := by
    rw [snapshotEvent, ← snap, ← he]
  rw [heq]
  constructor
  · intro u
    rw [step_eq, effectOf_snapshot]
    exact mem_newPressed_bitmapFromPressed
  · rw [modifiers_step, effectOf_snapshot]
    rfl

/-! ## Snapshots arrive -/

/-- **Snapshots arrive in order.** Without jitter, whatever the loss and however the bytes are
split into events, the daemon's server hands on exactly the snapshots that were not lost, in
the order in which they were taken, each with the number of its round; and once the callback has
processed them, after any past, the daemon holds the keyboard usages of the last of them, and no
modifiers. -/
theorem snapshotsArrive {imp : Impairment} {rounds : List Round} {is : List Client.Input}
    {s : Outbox} (hjitter : imp.jitterMs = 0) (hrounds : rounds.length ≤ 2 ^ 32)
    (htimes : rounds.Pairwise fun r r' => r.time ≠ r'.time)
    (hcalls : enqueues is = senderCalls rounds) (hrun : Trace (outboxStep imp) {} is s)
    (hopen : Meets (outboxStep imp) {} (FindsOpen imp) is)
    {ins : List Quic.Input} {srv : Quic.Server} {stream : ℕ}
    (hsrv : Trace (Quic.step (Quic.start 52)) {} ins srv)
    (hbytes : Quic.bytesOf stream ins = written s.drain)
    {args : Args} {past es : List Event}
    (hes : es.map (·.msg) = (Quic.callsOf stream srv.log).map Message.snapshot) :
    Quic.callsOf stream srv.log = (keptRounds imp rounds).map (fun (r, seq) => snap r seq)
      ∧ (Quic.callsOf stream srv.log).map (fun data => (beU32 (data.drop 4)).toNat)
        = (keptRounds imp rounds).map Prod.snd
      ∧ ∀ r seq, (keptRounds imp rounds).getLast? = some (r, seq) →
        HoldsSet r.pressed (Daemon.run args (past ++ es)) := by
  have hpayloads := payloads_drain hjitter htimes hcalls hrun hopen
  have hlen : ∀ h ∈ s.drain.sent, h.entry.payload.length = 52 := by
    intro h hh
    have hmem : h.entry.payload ∈ (keptRounds imp rounds).map fun (r, seq) => snap r seq := by
      rw [← hpayloads]
      exact List.mem_map_of_mem hh
    rcases List.mem_map.mp hmem with ⟨⟨r, seq⟩, -, heq⟩
    rw [← heq]
    exact length_snap r seq
  have hrecords : Quic.callsOf stream srv.log
      = (keptRounds imp rounds).map fun (r, seq) => snap r seq := by
    rw [callsOf_written hlen hsrv hbytes, hpayloads]
  refine ⟨hrecords, ?_, fun r seq hlast => ?_⟩
  · rw [hrecords, List.map_map]
    exact List.map_congr_left fun x hx => seq_of_mem_keptRounds hrounds hx
  rw [hrecords, List.map_map] at hes
  -- the last event processes the last snapshot
  have hmsg : (es.getLast?).map (·.msg) = some (.snapshot (snap r seq)) := by
    rw [← List.getLast?_map, hes, List.getLast?_map, hlast]
    rfl
  rcases Option.map_eq_some_iff.mp hmsg with ⟨e, he, hsnap⟩
  rcases List.getLast?_eq_some_iff.mp he with ⟨before, rfl⟩
  rw [← List.append_assoc, run_concat]
  exact holdsSet_step hsnap

/-- Half of the packets are lost, the others come 50 ms later. -/
def lossyLink : Impairment := { baseMs := 50, loss := 1 / 2 }

/-- The first round: `a` is down. -/
def roundA : Round := { time := 0, pressed := ⟨[4], by decide⟩, dropDraw := 3 / 4 }

/-- The third one: only `b` is. -/
def roundB : Round := { time := 1 / 50, pressed := ⟨[5], by decide⟩, dropDraw := 1 / 2 }

/-- Between them a round with both, of which the snapshot is lost. -/
def threeRounds : List Round :=
  [roundA, { time := 1 / 100, pressed := ⟨[4, 5], by decide⟩, dropDraw := 1 / 4 }, roundB]

/-- The loop goes to sleep for the first snapshot; the others come meanwhile. -/
def roundCalls : List Client.Input :=
  match senderCalls threeRounds with
  | [] => []
  | c :: cs => c :: .loop :: cs

/-- The outbox after it. -/
def lastQueued : Outbox :=
  { now := 1 / 50, pq := [⟨7 / 100, snap roundB 2⟩], phase := .sleeping ⟨1 / 20, snap roundA 0⟩ }

/-- The bytes come in two events, split inside the second record. -/
def twoEvents : List Quic.Input :=
  let bytes := written lastQueued.drain
  [.conn 0 (.peerStreamStarted 4), .stream 4 (.receive [bytes.take 60]),
    .stream 4 (.receive [bytes.drop 60])]

/-- The callback on a record. -/
def onRecord (data : List UInt8) : Event := { msg := .snapshot data, now := 0, ord := .back _ }

/-- Two records come, and the daemon ends up with `b`. -/
theorem snapshotsArrive_threeRounds :
    ∃ srv, Trace (Quic.step (Quic.start 52)) {} twoEvents srv
      ∧ Quic.callsOf 4 srv.log = [snap roundA 0, snap roundB 2]
      ∧ HoldsSet roundB.pressed
        (Daemon.run {} ([] ++ (Quic.callsOf 4 srv.log).map onRecord)) := by
  have hsrv : ∃ srv, Trace (Quic.step (Quic.start 52)) {} twoEvents srv :=
    ⟨_, trace_of_foldlM rfl⟩
  have hrun : Trace (outboxStep lossyLink) {} roundCalls lastQueued :=
    trace_of_foldlM (by decide +kernel)
  have hkept : keptRounds lossyLink threeRounds = [(roundA, 0), (roundB, 2)] := by
    rw [keptRounds, threeRounds, List.zipIdx_cons, List.zipIdx_cons, List.zipIdx_cons,
      List.filter_cons_of_pos (by decide +kernel), List.filter_cons_of_neg (by decide +kernel),
      List.filter_cons_of_pos (by decide +kernel)]
    rfl
  have htimes : threeRounds.Pairwise fun r r' => r.time ≠ r'.time := by
    rw [← List.pairwise_map]
    decide +kernel
  have hbytes : Quic.bytesOf 4 twoEvents = written lastQueued.drain := by decide +kernel
  rcases hsrv with ⟨srv, hsrv⟩
  have hmsgs : ((Quic.callsOf 4 srv.log).map onRecord).map (·.msg)
      = (Quic.callsOf 4 srv.log).map Message.snapshot := by
    rw [List.map_map]
    rfl
  have harrive := @snapshotsArrive _ _ _ _ rfl (by decide) htimes rfl hrun
    (findsOpen_of_trace hrun (by decide)) _ _ _ hsrv hbytes {} [] _ hmsgs
  rw [hkept] at harrive
  exact ⟨srv, hsrv, harrive.1, harrive.2.2 roundB 2 rfl⟩

end QuicKeys.Link
