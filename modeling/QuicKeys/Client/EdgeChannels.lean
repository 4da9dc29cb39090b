import QuicKeys.Client.QuicOnly
import QuicKeys.Quic.Records

/-!
# Two edge channels

The same edges, once as datagrams and once as records on a stream. However the stream is
cut into events, and whatever happens on the other streams of the server, the daemon goes
through the same key states and sends the same reports.
-/

namespace QuicKeys.Client.QuicOnly

open Daemon Runs

/-- An edge on a key of the workloads, with the timestamps of the two encoders, the sequence
number of the record, and the daemon's clock and hash table when it is handled. -/
structure SentEdge where
  down : Bool
  key : Key
  tNs : UInt64
  tMs : UInt64
  seq : UInt32
  now : UInt64
  ord : IterOrder UInt8

namespace SentEdge

/-- The edge as a datagram. -/
def datagram (e : SentEdge) : Event := edgeEvent (edgeCmd e.down) e.key e.tNs e.now e.ord

/-- The bytes the edge adds to the stream. -/
def record (e : SentEdge) : List UInt8 :=
  (writeEdge e.seq e.tMs (edgeCmd e.down) e.key.name).getD []

/-- The callback of the edge on one call of `on_message_`. -/
def received (e : SentEdge) (data : List UInt8) : Event := recordEvent data e.now e.ord

lemma record_eq (e : SentEdge) :
    e.record = packEdge e.seq e.tMs e.key.usage.toUInt16 (edgeCmd e.down) := by
  rw [record, writeEdge_name, Option.getD_some]

@[simp] lemma length_record (e : SentEdge) : e.record.length = 16 := by
  rw [record_eq, length_packEdge]

end SentEdge

/-- The datagrams of the edges. -/
def datagrams (es : List SentEdge) : List Event := es.map SentEdge.datagram

/-- The calls of `on_message_`, one for each edge. -/
def callbacks (es : List SentEdge) (calls : List (List UInt8)) : List Event :=
  List.zipWith SentEdge.received es calls

/-! ## One edge -/

section Steps

variable {args : Args} (hdl : args.deadlineMs ≤ 0) (e : SentEdge)

include hdl

lemma effectOf_datagram : effectOf args e.datagram = .edge none e.down e.key.usage :=
  effectOf_edge _ _ (Client.withinDeadline_of_le hdl) _

lemma effectOf_received :
    effectOf args (e.received e.record) = .edge (some 0) e.down e.key.usage := by
  rw [SentEdge.record_eq]
  exact effectOf_record _ _ _ _ (withinDeadline_of_le hdl)

/-- **Step lemma.** While no modifier is held, the two forms of an edge do the same. -/
lemma step_datagram {s : KeyState} (hmods : s.modifiers = 0) :
    step args s e.datagram = step args s (e.received e.record)
      ∧ (step args s e.datagram).modifiers = 0
      ∧ emitted args s e.datagram = emitted args s (e.received e.record) := by
  have hstep : step args s e.datagram = step args s (e.received e.record) := by
    rw [step_eq, step_eq, effectOf_datagram hdl, effectOf_received hdl]
    simp only [Effect.apply, Option.getD_none, Option.getD_some, hmods]
    cases e.down <;> rfl
  refine ⟨hstep, ?_, ?_⟩
  · rw [modifiers_step, effectOf_datagram hdl]
    exact hmods
  · rw [emitted_of_edge (effectOf_datagram hdl e), emitted_of_edge (effectOf_received hdl e), hstep]

/-- **Run lemma.** -/
lemma foldl_datagrams (es : List SentEdge) {s : KeyState} (hmods : s.modifiers = 0) :
    (datagrams es).foldl (step args) s = (callbacks es (es.map SentEdge.record)).foldl (step args) s
      ∧ reports args s (datagrams es) = reports args s (callbacks es (es.map SentEdge.record)) := by
  induction es generalizing s with
  | nil => exact ⟨rfl, rfl⟩
  | cons e es ih =>
    rcases step_datagram hdl e hmods with ⟨hstep, hmods', hemitted⟩
    rcases ih hmods' with ⟨hstate, hreports⟩
    rw [datagrams, callbacks, List.map_cons, List.map_cons, List.zipWith_cons_cons,
      List.foldl_cons, List.foldl_cons, reports, reports, ← hstep, ← hemitted]
    exact ⟨hstate, congrArg _ hreports⟩

end Steps

/-! ## The two channels -/

/-- The stream of the edges comes out of the server record by record. -/
lemma callsOf_records {ins : List Quic.Input} {srv : Quic.Server}
    (hrun : Trace (Quic.step (Quic.start 16)) {} ins srv) {stream : ℕ} {es : List SentEdge}
    (hbytes : Quic.bytesOf stream ins = (es.map SentEdge.record).flatten) :
    Quic.callsOf stream srv.log = es.map SentEdge.record := by
  rcases (Quic.reassembles_run rfl hrun stream).framed with ⟨pending, hframed⟩
  have hlen : ∀ b ∈ es.map SentEdge.record, b.length = 16 := by
    intro b hb
    rcases List.mem_map.mp hb with ⟨e, -, rfl⟩
    exact e.length_record
  have hblocks := Blocks.blocks_flatten_append (t := []) (by decide) hlen (by decide)
  rw [List.append_nil, ← hbytes] at hblocks
  exact (hframed.records (by decide)).1.trans hblocks.1

/-- **One edge channel.** With the deadline disabled, the edges of any list leave the same key
state after each of them and send the same reports, whether they arrive as datagrams or as
records on a stream of the server. -/
theorem sameChannel {args : Args} (hdl : args.deadlineMs ≤ 0) {es : List SentEdge}
    {ins : List Quic.Input} {srv : Quic.Server} {stream : ℕ}
    (hrun : Trace (Quic.step (Quic.start 16)) {} ins srv)
    (hbytes : Quic.bytesOf stream ins = (es.map SentEdge.record).flatten) :
    (Quic.callsOf stream srv.log).length = es.length
      ∧ ∀ k, run args ((datagrams es).take k)
          = run args ((callbacks es (Quic.callsOf stream srv.log)).take k)
        ∧ reports args {} ((datagrams es).take k)
          = reports args {} ((callbacks es (Quic.callsOf stream srv.log)).take k) := by
  rw [callsOf_records hrun hbytes]
  refine ⟨List.length_map _, fun k => ?_⟩
  rw [datagrams, callbacks, ← List.map_take, List.take_zipWith, ← List.map_take]
  exact foldl_datagrams hdl (es.take k) rfl

/-! ## A key that is pressed and released -/

/-- `ENTER` is pressed and released. -/
def pressAndRelease : List SentEdge :=
  [⟨true, .enter, 5000000, 5, 0, 7000000, IterOrder.front UInt8⟩,
    ⟨false, .enter, 6000000, 6, 1, 8000000, IterOrder.front UInt8⟩]

/-- The 32 bytes of its records arrive in three events, the second of which ends the first
record and begins the other one. -/
def threeChunks : List Quic.Input :=
  let bytes := (pressAndRelease.map SentEdge.record).flatten
  [.conn 0 (.peerStreamStarted 1), .stream 1 (.receive [bytes.take 5]),
    .stream 1 (.receive [(bytes.drop 5).take 6, [], (bytes.drop 11).take 9]),
    .stream 1 (.receive [bytes.drop 20])]

/-- After the first record, both channels have the key pressed. -/
theorem sameChannel_pressAndRelease :
    ∃ srv, Trace (Quic.step (Quic.start 16)) {} threeChunks srv
      ∧ run { deadlineMs := 0 } ((datagrams pressAndRelease).take 1)
        = run { deadlineMs := 0 }
          ((callbacks pressAndRelease (Quic.callsOf 1 srv.log)).take 1) := by
  have hrun : ∃ srv, Trace (Quic.step (Quic.start 16)) {} threeChunks srv :=
    ⟨_, trace_of_foldlM rfl⟩
  rcases hrun with ⟨srv, hrun⟩
  have hdl : ({ deadlineMs := 0 } : Args).deadlineMs ≤ 0 := by decide
  have hbytes : Quic.bytesOf 1 threeChunks = (pressAndRelease.map SentEdge.record).flatten := by
    decide
  exact ⟨srv, hrun, ((sameChannel hdl hrun hbytes).2 1).1⟩

end QuicKeys.Client.QuicOnly
