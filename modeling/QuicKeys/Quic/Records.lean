import QuicKeys.Quic.Server

/-!
# Records off a stream

How msquic splits the bytes of a stream into events and buffers, and what happens on other
streams in between, plays no part in the calls of `on_message_`: they are the consecutive
records of the stream, and the context keeps what is left of the last one.
-/

namespace QuicKeys.Quic

open Runs

/-! ## Observations -/

/-- The bytes delivered on a stream. -/
def bytesOf (stream : ℕ) (ins : List Input) : List UInt8 :=
  ins.flatMap fun
    | .stream id (.receive buffers) => if id = stream then buffers.flatten else []
    | _ => []

/-- The calls of `on_message_` that a stream caused. -/
def callsOf (stream : ℕ) (log : List Entry) : List (List UInt8) :=
  log.filterMap fun
    | .message id data => if id = stream then some data else none
    | _ => none

/-- What was delivered of the bytes of a stream, and what is pending: whole records and a
part of one, or everything and nothing if there are no records. -/
structure Framed (r : ℕ) (bytes : List UInt8) (calls : List (List UInt8))
    (pending : List UInt8) : Prop where
  records : 0 < r → calls = Blocks.blocks r bytes ∧ pending = Blocks.rest r bytes
    ∧ pending.length < r
  raw : r = 0 → calls.flatten = bytes ∧ pending = []

lemma bytesOf_concat (stream : ℕ) (ins : List Input) (i : Input) :
    bytesOf stream (ins ++ [i]) = bytesOf stream ins ++ bytesOf stream [i] :=
  List.flatMap_append

lemma callsOf_append (stream : ℕ) (log log' : List Entry) :
    callsOf stream (log ++ log') = callsOf stream log ++ callsOf stream log' :=
  List.filterMap_append

lemma callsOf_message_self (stream : ℕ) (calls : List (List UInt8)) :
    callsOf stream (calls.map (.message stream)) = calls := by
  rw [callsOf, List.filterMap_map]
  simp

lemma callsOf_message_of_ne {stream id : ℕ} (h : id ≠ stream) (calls : List (List UInt8)) :
    callsOf stream (calls.map (.message id)) = [] := by
  rw [callsOf, List.filterMap_map]
  simp [h]

lemma framed_nil (r : ℕ) : Framed r [] [] [] where
  records hr := by
    rw [Blocks.blocks_of_length_lt hr, Blocks.rest_of_length_lt hr]
    exact ⟨rfl, rfl, hr⟩
  raw _ := ⟨rfl, rfl⟩

/-! ## One event -/

section Receive

variable {cfg : Config}

/-- Empty buffers are skipped, which makes no difference. -/
lemma appendBuffers_eq (pending : List UInt8) (buffers : List (List UInt8)) :
    appendBuffers pending buffers = pending ++ buffers.flatten := by
  induction buffers generalizing pending with
  | nil => rw [List.flatten_nil, List.append_nil]; rfl
  | cons b buffers ih =>
    rw [appendBuffers, List.foldl_cons, ← appendBuffers, ih, List.flatten_cons]
    split
    · rw [List.append_assoc]
    · rename_i hb
      rw [List.eq_nil_of_length_eq_zero (not_not.mp hb), List.nil_append]

/-- **The drain loop** hands on every complete record and keeps the remainder. -/
theorem drainRecords_eq (hcb : cfg.onMessage = true) (hr : 0 < cfg.recordSize)
    (pending : List UInt8) :
    drainRecords cfg pending
      = (Blocks.blocks cfg.recordSize pending, Blocks.rest cfg.recordSize pending) := by
  induction pending using drainRecords.induct cfg with
  | case1 pending h _ _ _ ih =>
    have hlen : (pending.take cfg.recordSize).length = cfg.recordSize := by
      rw [List.length_take]
      omega
    have hblocks := Blocks.blocks_append hr hlen (pending.drop cfg.recordSize)
    have hrest := Blocks.rest_append hr hlen (pending.drop cfg.recordSize)
    rw [List.take_append_drop] at hblocks hrest
    rw [drainRecords, dif_pos h, ih, hblocks, hrest, hcb]
    rfl
  | case2 pending h =>
    have hlt : pending.length < cfg.recordSize := by omega
    rw [drainRecords, dif_neg h, Blocks.blocks_of_length_lt hlt, Blocks.rest_of_length_lt hlt]

/-- **Step lemma.** One event extends what was delivered by its bytes. -/
lemma framed_receive (hcb : cfg.onMessage = true) {bytes : List UInt8}
    {calls : List (List UInt8)} {ctx : StreamCtx}
    (h : Framed cfg.recordSize bytes calls ctx.pending) (buffers : List (List UInt8)) :
    Framed cfg.recordSize (bytes ++ buffers.flatten) (calls ++ (receive cfg ctx buffers).1)
      (receive cfg ctx buffers).2.pending := by
  rw [receive, appendBuffers_eq]
  constructor
  · intro hr
    rcases h.records hr with ⟨hcalls, hpending, -⟩
    have hcarry := Blocks.blocks_append_rest hr bytes buffers.flatten
    simp only [if_pos hr, drainRecords_eq hcb hr]
    rw [hcalls, hpending]
    exact ⟨hcarry.1.symm, hcarry.2.symm, Blocks.length_rest_lt hr _⟩
  · intro hr
    rcases h.raw hr with ⟨hcalls, hpending⟩
    rw [if_neg (by omega), if_pos hcb, hpending, List.nil_append]
    split
    · rename_i hempty
      rw [List.isEmpty_iff.mp hempty, List.append_nil, List.append_nil]
      exact ⟨hcalls, rfl⟩
    · rw [List.flatten_append, hcalls, List.flatten_singleton]
      exact ⟨rfl, rfl⟩

end Receive

/-! ## What a call of msquic can do -/

section Inversion

variable {cfg : Config} {s s' : Server}

/-- An event of a connection is logged; a start registers a handler for a stream that has
none. -/
lemma step_conn {conn : ℕ} {ev : ConnEvent} (h : step cfg s (.conn conn ev) = some s') :
    s'.log = s.log ++ (connCb conn ev).2
      ∧ ((∀ id, ev ≠ .peerStreamStarted id) ∧ s'.slot = s.slot
        ∨ ∃ id, ev = .peerStreamStarted id ∧ s.slot id = .unregistered
          ∧ s'.slot = Function.update s.slot id (.registered {})) := by
  rw [step] at h
  cases ev with
  | peerStreamStarted id =>
    simp only [connCb] at h
    split at h
    · rename_i hslot
      cases h
      exact ⟨rfl, Or.inr ⟨id, rfl, hslot, rfl⟩⟩
    · cases h
  | _ =>
    cases h
    exact ⟨rfl, Or.inl ⟨by simp, rfl⟩⟩

/-- An event of a stream finds its context. -/
lemma step_stream {id : ℕ} {ev : StreamEvent} (h : step cfg s (.stream id ev) = some s') :
    ∃ ctx, s.slot id = .registered ctx
      ∧ s'.slot = Function.update s.slot id (streamCb cfg id ctx ev).1
      ∧ s'.log = s.log ++ (streamCb cfg id ctx ev).2 := by
  rw [step] at h
  split at h
  · rename_i ctx hslot
    cases h
    exact ⟨ctx, hslot, rfl, rfl⟩
  · cases h

end Inversion

/-! ## The invariant -/

/-- The part of the stream that was delivered, the calls it caused and what is pending
belong together. -/
def Reassembles (cfg : Config) (ins : List Input) (s : Server) (stream : ℕ) : Prop :=
  match s.slot stream with
  | .unregistered => bytesOf stream ins = [] ∧ callsOf stream s.log = []
  | .registered ctx =>
    Framed cfg.recordSize (bytesOf stream ins) (callsOf stream s.log) ctx.pending
  | .retired =>
    ∃ pending, Framed cfg.recordSize (bytesOf stream ins) (callsOf stream s.log) pending

section Steps

variable {cfg : Config} {ins : List Input} {s s' : Server} {stream : ℕ}

/-- Whatever became of the stream, its calls are framed. -/
lemma Reassembles.framed (h : Reassembles cfg ins s stream) :
    ∃ pending, Framed cfg.recordSize (bytesOf stream ins) (callsOf stream s.log) pending := by
  rw [Reassembles] at h
  split at h
  · rw [h.1, h.2]
    exact ⟨[], framed_nil _⟩
  · exact ⟨_, h⟩
  · exact h

lemma reassembles_conn (h : Reassembles cfg ins s stream) {conn : ℕ} {ev : ConnEvent}
    (hstep : step cfg s (.conn conn ev) = some s') :
    Reassembles cfg (ins ++ [.conn conn ev]) s' stream := by
  have hbytes : bytesOf stream (ins ++ [.conn conn ev]) = bytesOf stream ins := by
    rw [bytesOf_concat]
    exact List.append_nil _
  rcases step_conn hstep with ⟨hlog, hslot⟩
  have hcalls : callsOf stream s'.log = callsOf stream s.log := by
    have hnone : callsOf stream (connCb conn ev).2 = [] := by cases ev <;> rfl
    rw [hlog, callsOf_append, hnone, List.append_nil]
  have hsame (hs : s'.slot stream = s.slot stream) :
      Reassembles cfg (ins ++ [.conn conn ev]) s' stream := by
    rw [Reassembles, hs, hbytes, hcalls]
    exact h
  rcases hslot with ⟨-, hslot⟩ | ⟨id, -, hold, hslot⟩
  · exact hsame (congrFun hslot stream)
  · by_cases hid : stream = id
    · subst hid
      rw [Reassembles, hold] at h
      rw [Reassembles, hslot, Function.update_self, hbytes, hcalls]
      dsimp only
      rw [h.1, h.2]
      exact framed_nil _
    · apply hsame
      rw [hslot, Function.update_of_ne hid]

/-- An event of another stream leaves this one alone. -/
lemma reassembles_of_ne (h : Reassembles cfg ins s stream) {id : ℕ} (hid : id ≠ stream)
    {ev : StreamEvent} (hstep : step cfg s (.stream id ev) = some s') :
    Reassembles cfg (ins ++ [.stream id ev]) s' stream := by
  rcases step_stream hstep with ⟨ctx, -, hslot, hlog⟩
  have hbytes : bytesOf stream (ins ++ [.stream id ev]) = bytesOf stream ins := by
    rw [bytesOf_concat]
    cases ev <;> simp [bytesOf, hid]
  have hcalls : callsOf stream s'.log = callsOf stream s.log := by
    rw [hlog, callsOf_append]
    cases ev with
    | receive buffers =>
      show _ ++ callsOf stream ((receive cfg ctx buffers).1.map (.message id)) = _
      rw [callsOf_message_of_ne hid, List.append_nil]
    | peerSendShutdown => exact List.append_nil _
    | shutdownComplete => exact List.append_nil _
    | other => exact List.append_nil _
  rw [Reassembles, hslot, Function.update_of_ne (Ne.symm hid), hbytes, hcalls]
  exact h

lemma reassembles_self (hcb : cfg.onMessage = true) (h : Reassembles cfg ins s stream)
    {ev : StreamEvent} (hstep : step cfg s (.stream stream ev) = some s') :
    Reassembles cfg (ins ++ [.stream stream ev]) s' stream := by
  rcases step_stream hstep with ⟨ctx, hctx, hslot, hlog⟩
  rw [Reassembles, hctx] at h
  rw [Reassembles, hslot, Function.update_self, hlog, callsOf_append, bytesOf_concat]
  cases ev with
  | receive buffers =>
    have hbytes : bytesOf stream [.stream stream (.receive buffers)] = buffers.flatten := by
      simp [bytesOf]
    show Framed _ _ (_ ++ callsOf stream ((receive cfg ctx buffers).1.map (.message stream))) _
    rw [hbytes, callsOf_message_self]
    exact framed_receive hcb h buffers
  | peerSendShutdown =>
    refine ⟨ctx.pending, ?_⟩
    simpa [bytesOf, callsOf, streamCb] using h
  | shutdownComplete =>
    refine ⟨ctx.pending, ?_⟩
    simpa [bytesOf, callsOf, streamCb] using h
  | other => simpa [bytesOf, callsOf, streamCb] using h

/-- **Step lemma.** -/
lemma reassembles_step (hcb : cfg.onMessage = true) (h : Reassembles cfg ins s stream)
    {i : Input} (hstep : step cfg s i = some s') : Reassembles cfg (ins ++ [i]) s' stream := by
  cases i with
  | conn conn ev => exact reassembles_conn h hstep
  | stream id ev =>
    by_cases hid : id = stream
    · subst hid
      exact reassembles_self hcb h hstep
    · exact reassembles_of_ne h hid hstep

/-- **Run lemma.** -/
theorem reassembles_run (hcb : cfg.onMessage = true) (hrun : Trace (step cfg) {} ins s)
    (stream : ℕ) : Reassembles cfg ins s stream := by
  induction hrun with
  | nil => exact ⟨rfl, rfl⟩
  | snoc _ enabled ih => exact reassembles_step hcb ih enabled

end Steps

/-! ## Runs -/

/-- The start of a stream is among the inputs. -/
def Started (id : ℕ) (ins : List Input) : Prop := ∃ conn, .conn conn (.peerStreamStarted id) ∈ ins

/-- Every stream starts at most once, its events come after its start, and none of them ends
it. -/
structure Unended (ins : List Input) : Prop where
  once : ∀ pre post conn id, ins = pre ++ .conn conn (.peerStreamStarted id) :: post →
    ¬Started id pre
  started : ∀ pre post id ev, ins = pre ++ .stream id ev :: post →
    Started id pre ∧ ev ≠ .peerSendShutdown ∧ ev ≠ .shutdownComplete

/-- A stream has a context from its start on. -/
def SlotAt (id : ℕ) (ins : List Input) (slot : Slot) : Prop :=
  (Started id ins → ∃ ctx, slot = .registered ctx) ∧ (¬Started id ins → slot = .unregistered)

lemma started_concat {id : ℕ} {ins : List Input} {i : Input} :
    Started id (ins ++ [i]) ↔ Started id ins ∨ ∃ conn, i = .conn conn (.peerStreamStarted id) := by
  simp only [Started, List.mem_append, List.mem_singleton, exists_or, eq_comm]

/-- An input that starts no stream leaves them where they are. -/
lemma slotAt_concat {id : ℕ} {ins : List Input} {i : Input} {slot : Slot}
    (h : SlotAt id ins slot) (hi : ∀ conn, i ≠ .conn conn (.peerStreamStarted id)) :
    SlotAt id (ins ++ [i]) slot := by
  have hiff : Started id (ins ++ [i]) ↔ Started id ins :=
    started_concat.trans (or_iff_left fun ⟨conn, hconn⟩ => hi conn hconn)
  rwa [SlotAt, hiff]

/-- **Step lemma.** -/
lemma exists_step {cfg : Config} {ins : List Input} {s : Server} {i : Input}
    (h : Unended (ins ++ [i])) (hs : ∀ id, SlotAt id ins (s.slot id)) :
    ∃ s', step cfg s i = some s' ∧ ∀ id, SlotAt id (ins ++ [i]) (s'.slot id) := by
  cases i with
  | conn conn ev =>
    cases ev with
    | peerStreamStarted id =>
      have hnot : ¬Started id ins := h.once ins [] conn id rfl
      have hfree : s.slot id = .unregistered := (hs id).2 hnot
      refine ⟨{ s with slot := Function.update s.slot id (.registered {}), log := s.log ++ [] },
        by simp [step, connCb, hfree], fun id' => ?_⟩
      dsimp only
      by_cases hid : id' = id
      · subst hid
        rw [Function.update_self]
        exact ⟨fun _ => ⟨{}, rfl⟩,
          fun hno => absurd (started_concat.mpr (Or.inr ⟨conn, rfl⟩)) hno⟩
      · rw [Function.update_of_ne hid]
        refine slotAt_concat (hs id') fun c hc => hid ?_
        cases hc
        rfl
    | connected | shutdownInitiatedByTransport | shutdownInitiatedByPeer | shutdownComplete
    | other => exact ⟨_, rfl, fun id => slotAt_concat (hs id) nofun⟩
  | stream id ev =>
    rcases h.started ins [] id ev rfl with ⟨hstarted, hsend, hcomplete⟩
    rcases (hs id).1 hstarted with ⟨ctx, hctx⟩
    have hkept : ∃ ctx', (streamCb cfg id ctx ev).1 = .registered ctx' := by
      cases ev with
      | receive buffers => exact ⟨_, rfl⟩
      | peerSendShutdown => exact absurd rfl hsend
      | shutdownComplete => exact absurd rfl hcomplete
      | other => exact ⟨ctx, rfl⟩
    rcases hkept with ⟨ctx', hctx'⟩
    refine ⟨_, by simp only [step, hctx]; rfl, fun id' => slotAt_concat ?_ nofun⟩
    dsimp only
    by_cases hid : id' = id
    · subst hid
      rw [Function.update_self]
      exact ⟨fun _ => ⟨ctx', hctx'⟩, fun hno => absurd hstarted hno⟩
    · rw [Function.update_of_ne hid]
      exact hs id'

/-- **Starts and RECEIVE events always have a run**, whatever the connections do besides. -/
theorem exists_trace_of_unended {cfg : Config} {ins : List Input} (h : Unended ins) :
    ∃ s, Trace (step cfg) {} ins s ∧ ∀ id, SlotAt id ins (s.slot id) := by
  induction ins using List.reverseRecOn with
  | nil => exact ⟨{}, .nil, fun id => ⟨fun ⟨_, hmem⟩ => absurd hmem List.not_mem_nil, fun _ => rfl⟩⟩
  | append_singleton ins i ih =>
    have hins : Unended ins := by
      constructor
      · intro pre post conn id heq
        exact h.once pre (post ++ [i]) conn id (by rw [heq, List.append_assoc]; rfl)
      · intro pre post id ev heq
        exact h.started pre (post ++ [i]) id ev (by rw [heq, List.append_assoc]; rfl)
    rcases ih hins with ⟨s, hrun, hs⟩
    rcases exists_step h hs with ⟨s', hstep, hs'⟩
    exact ⟨s', .snoc hrun hstep, hs'⟩

/-- **Chunking does not matter.** In every run of a server that was started with a callback,
the calls a stream caused are the consecutive records of its bytes, and the remainder is
pending; without a record size, the calls make up its bytes, and nothing is pending.

A run has no event on a context that was deleted, as such an event has no defined outcome; while
streams are only started and not ended, there is always one (`exists_trace_of_unended`). -/
theorem framed_of_trace {r : ℕ} {ins : List Input} {s : Server}
    (hrun : Trace (step (start r)) {} ins s) (stream : ℕ) :
    (∃ pending, Framed r (bytesOf stream ins) (callsOf stream s.log) pending)
      ∧ ∀ ctx, s.slot stream = .registered ctx →
        Framed r (bytesOf stream ins) (callsOf stream s.log) ctx.pending := by
  have h := reassembles_run rfl hrun stream
  refine ⟨h.framed, fun ctx hctx => ?_⟩
  rw [Reassembles, hctx] at h
  exact h

/-- A record of 4 bytes that arrives in three events, an event of another stream between
them, and the beginning of a second record. -/
def threeEvents : List Input :=
  [.conn 0 (.peerStreamStarted 1), .stream 1 (.receive [[10], [], [11]]),
    .conn 0 (.peerStreamStarted 2), .stream 1 (.receive []), .stream 2 (.receive [[20, 21]]),
    .stream 1 (.receive [[12, 13, 14]])]

/-- One call, and one byte is left over. -/
theorem framed_of_trace_threeEvents :
    ∃ s, Trace (step (start 4)) {} threeEvents s ∧ callsOf 1 s.log = [[10, 11, 12, 13]]
      ∧ ∀ ctx, s.slot 1 = .registered ctx → ctx.pending = [14] := by
  have hrun : ∃ s, Trace (step (start 4)) {} threeEvents s := ⟨_, trace_of_foldlM rfl⟩
  rcases hrun with ⟨s, hrun⟩
  rcases framed_of_trace hrun 1 with ⟨⟨pending, hcalls⟩, hpending⟩
  refine ⟨s, hrun, (hcalls.records (by decide)).1, fun ctx hctx => ?_⟩
  exact ((hpending ctx hctx).records (by decide)).2.1

end QuicKeys.Quic
