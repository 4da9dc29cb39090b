import QuicKeys.Lib.Blocks
import QuicKeys.Lib.Runs

/-!
# The QUIC server

`msquic_server.cpp`: the callbacks of `MsQuicServer` on connections and streams. A stream
is a byte stream, so each has a context that carries over the bytes of an unfinished
record from one event to the next. What the callbacks do besides, calls of `on_message_`
and of the msquic API, is appended to a log. msquic itself is not part of this source: it
decides which event comes next.
-/

namespace QuicKeys.Quic

/-- The members of `MsQuicServer` that the callbacks read: whether `on_message_` is set, and
`record_size_`. -/
structure Config where
  onMessage : Bool
  recordSize : ℕ

/-- What `start` leaves, for a callback. -/
def start (recordSize : ℕ) : Config := { onMessage := true, recordSize }

/-- `StreamCtx`; its `server` is the one server, its `stream` the handle it is kept under. -/
structure StreamCtx where
  pending : List UInt8 := []

/-- What has become of a stream handle: no handler yet, a handler with its context, or a
context that was deleted. -/
inductive Slot
  | unregistered
  | registered (ctx : StreamCtx)
  | retired

/-- The events of a stream. -/
inductive StreamEvent
  | receive (buffers : List (List UInt8))
  | peerSendShutdown
  | shutdownComplete
  | other

/-- The events of a connection. -/
inductive ConnEvent
  | connected
  | peerStreamStarted (stream : ℕ)
  | shutdownInitiatedByTransport
  | shutdownInitiatedByPeer
  | shutdownComplete
  | other

/-- What the callbacks do to the outside: a call of `on_message_` during an event of a
stream, and calls of the API. -/
inductive Entry
  | message (stream : ℕ) (data : List UInt8)
  | streamClose (stream : ℕ)
  | connectionClose (conn : ℕ)
deriving DecidableEq

/-- The server: its streams, and what it did so far. -/
structure Server where
  slot : ℕ → Slot := fun _ => .unregistered
  log : List Entry := []

/-! ## Receiving -/

/-- `while (pending.size() >= record_size_)`: every round hands one record to `on_message_`
and erases it; the second component is what stays in `pending`. -/
def drainRecords (cfg : Config) (pending : List UInt8) : List (List UInt8) × List UInt8 :=
  if _h : 0 < cfg.recordSize ∧ cfg.recordSize ≤ pending.length then
    let (calls, left) := drainRecords cfg (pending.drop cfg.recordSize)
    -- without a callback the record is erased all the same
    ((if cfg.onMessage then [pending.take cfg.recordSize] else []) ++ calls, left)
  else ([], pending)
termination_by pending.length
decreasing_by
  rw [List.length_drop]
  omega

/-- The loop over the buffers of one event. -/
def appendBuffers (pending : List UInt8) (buffers : List (List UInt8)) : List UInt8 :=
  buffers.foldl (fun pending b => if b.length ≠ 0 then pending ++ b else pending) pending

/-- `QUIC_STREAM_EVENT_RECEIVE`: the calls of `on_message_`, and the context after them. -/
def receive (cfg : Config) (ctx : StreamCtx) (buffers : List (List UInt8)) :
    List (List UInt8) × StreamCtx :=
  let pending := appendBuffers ctx.pending buffers
  if 0 < cfg.recordSize then
    let (calls, left) := drainRecords cfg pending
    (calls, { pending := left })
  else if cfg.onMessage then
    -- raw mode: deliver whatever there is
    if pending.isEmpty then ([], { pending }) else ([pending], { pending := [] })
  else ([], { pending })

/-! ## The callbacks -/

/-- `stream_cb`, with the context it was registered with. -/
def streamCb (cfg : Config) (stream : ℕ) (ctx : StreamCtx) : StreamEvent → Slot × List Entry
  | .receive buffers =>
    let (calls, ctx) := receive cfg ctx buffers
    (.registered ctx, calls.map (.message stream))
  -- both close the stream and delete its context
  | .peerSendShutdown => (.retired, [.streamClose stream])
  | .shutdownComplete => (.retired, [.streamClose stream])
  | .other => (.registered ctx, [])

/-- `conn_cb`: the stream that gets a handler, and the calls of the API. -/
def connCb (conn : ℕ) : ConnEvent → Option ℕ × List Entry
  | .connected => (none, [])
  | .peerStreamStarted stream => (some stream, [])
  -- the two cases fall through to the next
  | .shutdownInitiatedByTransport => (none, [.connectionClose conn])
  | .shutdownInitiatedByPeer => (none, [.connectionClose conn])
  | .shutdownComplete => (none, [.connectionClose conn])
  | .other => (none, [])

/-- What msquic calls next. -/
inductive Input
  | conn (conn : ℕ) (ev : ConnEvent)
  | stream (stream : ℕ) (ev : StreamEvent)

/-- One call of msquic. A stream starts once; an event of a stream whose context was deleted
has no defined outcome. -/
def step (cfg : Config) (s : Server) : Input → Option Server
  | .conn conn ev =>
    let (started, entries) := connCb conn ev
    let s := { s with log := s.log ++ entries }
    match started with
    | none => some s
    | some stream =>
      match s.slot stream with
      | .unregistered =>
        some { s with slot := Function.update s.slot stream (.registered {}) }
      | _ => none
  | .stream stream ev =>
    match s.slot stream with
    | .registered ctx =>
      let (slot, entries) := streamCb cfg stream ctx ev
      some { slot := Function.update s.slot stream slot, log := s.log ++ entries }
    | _ => none

end QuicKeys.Quic
