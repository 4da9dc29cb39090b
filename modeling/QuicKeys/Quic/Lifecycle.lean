import QuicKeys.Quic.Records

/-!
# The life of the handles

msquic ends the events of a connection and of each stream with SHUTDOWN_COMPLETE, and may
announce the end before it: with SHUTDOWN_INITIATED on a connection, with PEER_SEND_SHUTDOWN
on a stream. The callbacks treat the announcement as the end (the cases fall through), so a
handle whose end was announced is closed a second time, and the context of such a stream is
used after it was deleted.
-/

namespace QuicKeys.Quic

open Runs

/-! ## What msquic delivers -/

/-- The events of a connection. -/
def connEvents (conn : ℕ) (ins : List Input) : List ConnEvent :=
  ins.filterMap fun
    | .conn c ev => if c = conn then some ev else none
    | .stream .. => none

/-- What is delivered for a stream: its start (`none`), and its events. -/
def lane (stream : ℕ) (ins : List Input) : List (Option StreamEvent) :=
  ins.filterMap fun
    | .conn _ (.peerStreamStarted id) => if id = stream then some none else none
    | .conn .. => none
    | .stream id ev => if id = stream then some (some ev) else none

/-- The order of the events of a connection. -/
def ConnOrder (evs : List ConnEvent) : Prop :=
  ∃ opened initiated, evs = opened ++ initiated ++ [.shutdownComplete]
    ∧ (∀ ev ∈ opened, ev = .connected ∨ ∃ id, ev = .peerStreamStarted id)
    ∧ (initiated = [] ∨ initiated = [.shutdownInitiatedByTransport]
      ∨ initiated = [.shutdownInitiatedByPeer])

/-- The order of the events of a stream. -/
def StreamOrder (evs : List StreamEvent) : Prop :=
  ∃ received finished, evs = received ++ finished ++ [.shutdownComplete]
    ∧ (∀ ev ∈ received, ∃ buffers, ev = .receive buffers)
    ∧ (finished = [] ∨ finished = [.peerSendShutdown])

/-- What msquic may deliver, on any number of connections and streams and in any
interleaving: a stream starts once, and its events come after its start. -/
structure Delivery (ins : List Input) : Prop where
  conns : ∀ conn, connEvents conn ins = [] ∨ ConnOrder (connEvents conn ins)
  streams : ∀ id, lane id ins = [] ∨ ∃ evs, lane id ins = none :: evs.map some ∧ StreamOrder evs

/-! ## Closing once -/

/-- The connection has not been closed when its SHUTDOWN_COMPLETE comes. -/
def OpenUntilComplete (cfg : Config) (ins : List Input) (conn : ℕ) : Prop :=
  ∀ pre post s, ins = pre ++ .conn conn .shutdownComplete :: post → Trace (step cfg) {} pre s →
    s.log.count (.connectionClose conn) = 0

/-- Every event finds the context of its stream, every connection is closed once, at its
SHUTDOWN_COMPLETE, and every stream is closed and its context deleted once. -/
def ClosedOnce (cfg : Config) (ins : List Input) : Prop :=
  ∃ s, Trace (step cfg) {} ins s
    ∧ (∀ conn, connEvents conn ins ≠ [] →
      s.log.count (.connectionClose conn) = 1 ∧ OpenUntilComplete cfg ins conn)
    ∧ ∀ id, lane id ins ≠ [] →
      s.log.count (.streamClose id) = 1 ∧ s.slot id = .retired

/-- No end is announced: nothing but SHUTDOWN_COMPLETE closes. -/
structure Unannounced (ins : List Input) : Prop where
  transport : ∀ conn, .shutdownInitiatedByTransport ∉ connEvents conn ins
  peer : ∀ conn, .shutdownInitiatedByPeer ∉ connEvents conn ins
  stream : ∀ id, some .peerSendShutdown ∉ lane id ins

/-- The events at which `conn_cb` closes. -/
def ConnEvent.closes : ConnEvent → Bool
  | .shutdownInitiatedByTransport => true
  | .shutdownInitiatedByPeer => true
  | .shutdownComplete => true
  | _ => false

/-- The events at which `stream_cb` closes. -/
def StreamEvent.closes : StreamEvent → Bool
  | .peerSendShutdown => true
  | .shutdownComplete => true
  | _ => false

lemma connEvents_append (conn : ℕ) (ins ins' : List Input) :
    connEvents conn (ins ++ ins') = connEvents conn ins ++ connEvents conn ins' :=
  List.filterMap_append

lemma lane_append (stream : ℕ) (ins ins' : List Input) :
    lane stream (ins ++ ins') = lane stream ins ++ lane stream ins' := List.filterMap_append

/-! ## What is logged -/

section Counts

variable {cfg : Config} {ins : List Input} {s s' : Server} {i : Input}

/-- **Step lemma** for the connections. -/
lemma count_connectionClose_step (h : step cfg s i = some s') (conn : ℕ) :
    s'.log.count (.connectionClose conn)
      = s.log.count (.connectionClose conn) + (connEvents conn [i]).countP ConnEvent.closes := by
  cases i with
  | conn c ev =>
    rw [(step_conn h).1, List.count_append]
    congr 1
    by_cases hc : c = conn
    · subst hc
      cases ev <;> simp [connCb, connEvents, ConnEvent.closes]
    · cases ev <;> simp [connCb, connEvents, hc]
  | stream id ev =>
    rcases step_stream h with ⟨ctx, -, -, hlog⟩
    rw [hlog, List.count_append]
    congr 1
    cases ev <;> simp [streamCb, connEvents, List.count_eq_zero]

/-- **Step lemma** for the streams. -/
lemma count_streamClose_step (h : step cfg s i = some s') (id : ℕ) :
    s'.log.count (.streamClose id)
      = s.log.count (.streamClose id)
        + (lane id [i]).countP fun ev => ev.any StreamEvent.closes := by
  cases i with
  | conn c ev =>
    rw [(step_conn h).1, List.count_append]
    congr 1
    cases ev with
    | peerStreamStarted id' =>
      by_cases hid : id' = id <;> simp [connCb, lane, hid]
    | _ => simp [connCb, lane]
  | stream id' ev =>
    rcases step_stream h with ⟨ctx, -, -, hlog⟩
    rw [hlog, List.count_append]
    congr 1
    by_cases hid : id' = id
    · subst hid
      cases ev <;> simp [streamCb, lane, StreamEvent.closes, List.count_eq_zero]
    · cases ev <;> simp [streamCb, lane, hid, List.count_eq_zero]

/-- **Run lemma.** A run has closed a connection as often as closing events came. -/
lemma count_connectionClose (hrun : Trace (step cfg) {} ins s) (conn : ℕ) :
    s.log.count (.connectionClose conn) = (connEvents conn ins).countP ConnEvent.closes := by
  induction hrun with
  | nil => rfl
  | snoc _ enabled ih =>
    rw [count_connectionClose_step enabled, ih, connEvents_append, List.countP_append]

lemma count_streamClose (hrun : Trace (step cfg) {} ins s) (id : ℕ) :
    s.log.count (.streamClose id)
      = (lane id ins).countP fun ev => ev.any StreamEvent.closes := by
  induction hrun with
  | nil => rfl
  | snoc _ enabled ih =>
    rw [count_streamClose_step enabled, ih, lane_append, List.countP_append]

end Counts

/-! ## What becomes of a stream -/

/-- The events of a stream so far, by what has become of its handle. -/
def LaneAt (l : List (Option StreamEvent)) : Slot → Prop
  | .unregistered => l = []
  | .registered _ => ∃ evs : List StreamEvent,
    l = none :: evs.map some ∧ ∀ ev ∈ evs, ev.closes = false
  | .retired => ∃ (evs : List StreamEvent) (ev : StreamEvent),
    l = none :: (evs ++ [ev]).map some ∧ ev.closes = true

section Lanes

variable {cfg : Config} {ins : List Input} {s s' : Server} {i : Input} {id : ℕ}

/-- What `stream_cb` does to the context depends on whether the event closes. -/
lemma laneAt_streamCb {evs : List StreamEvent} (hopen : ∀ ev ∈ evs, ev.closes = false)
    (ctx : StreamCtx) (ev : StreamEvent) :
    LaneAt (none :: (evs ++ [ev]).map some) (streamCb cfg id ctx ev).1 := by
  have hstays : ev.closes = false → ∀ ctx', LaneAt (none :: (evs ++ [ev]).map some)
      (.registered ctx') := by
    intro hev ctx'
    refine ⟨evs ++ [ev], rfl, fun d hd => ?_⟩
    rcases List.mem_append.mp hd with hd | hd
    · exact hopen d hd
    · rwa [List.mem_singleton.mp hd]
  cases ev with
  | receive buffers => exact hstays rfl _
  | peerSendShutdown => exact ⟨evs, .peerSendShutdown, rfl, rfl⟩
  | shutdownComplete => exact ⟨evs, .shutdownComplete, rfl, rfl⟩
  | other => exact hstays rfl _

/-- **Step lemma.** -/
lemma laneAt_step (h : LaneAt (lane id ins) (s.slot id)) (hstep : step cfg s i = some s') :
    LaneAt (lane id (ins ++ [i])) (s'.slot id) := by
  rw [lane_append]
  cases i with
  | conn c ev =>
    rcases (step_conn hstep).2 with ⟨hev, hslot⟩ | ⟨id', rfl, hold, hslot⟩
    · have hnone : lane id [.conn c ev] = [] := by
        cases ev with
        | peerStreamStarted id' => exact absurd rfl (hev id')
        | _ => rfl
      rwa [hnone, List.append_nil, hslot]
    · by_cases hid : id' = id
      · subst hid
        rw [hold] at h
        rw [show lane id' ins = [] from h, hslot, Function.update_self]
        exact ⟨[], by simp [lane], fun ev hev => absurd hev List.not_mem_nil⟩
      · have hnone : lane id [.conn c (.peerStreamStarted id')] = [] := by simp [lane, hid]
        rwa [hnone, List.append_nil, hslot, Function.update_of_ne (Ne.symm hid)]
  | stream id' ev =>
    rcases step_stream hstep with ⟨ctx, hctx, hslot, -⟩
    by_cases hid : id' = id
    · subst hid
      rw [hctx] at h
      rcases h with ⟨evs, hlane, hopen⟩
      have hone : lane id' [.stream id' ev] = [some ev] := by simp [lane]
      rw [hone, hlane, hslot, Function.update_self]
      have hcb : LaneAt _ (streamCb cfg id' ctx ev).1 := laneAt_streamCb hopen ctx ev
      rwa [List.map_append] at hcb
    · have hnone : lane id [.stream id' ev] = [] := by simp [lane, hid]
      rwa [hnone, List.append_nil, hslot, Function.update_of_ne (Ne.symm hid)]

/-- **Run lemma.** -/
lemma laneAt_run (hrun : Trace (step cfg) {} ins s) (id : ℕ) :
    LaneAt (lane id ins) (s.slot id) := by
  induction hrun with
  | nil => rfl
  | snoc _ enabled ih => exact laneAt_step ih enabled

end Lanes

/-! ## When every handle is closed once -/

section Deliveries

variable {cfg : Config} {ins pre post : List Input} {s : Server} {i : Input}

/-- Behind an announced end, the events of a connection close it twice. -/
lemma countP_closes {evs : List ConnEvent} (h : ConnOrder evs) :
    evs.countP ConnEvent.closes = 1
      ↔ .shutdownInitiatedByTransport ∉ evs ∧ .shutdownInitiatedByPeer ∉ evs := by
  rcases h with ⟨opened, initiated, rfl, hopened, hinit⟩
  have hzero : opened.countP ConnEvent.closes = 0 := by
    rw [List.countP_eq_zero]
    intro ev hev
    rcases hopened ev hev with rfl | ⟨id, rfl⟩ <;> exact Bool.false_ne_true
  have hnot (d : ConnEvent) (hd : d.closes = true) : d ∉ opened := by
    intro hmem
    exact List.countP_eq_zero.mp hzero d hmem hd
  have htransport := hnot .shutdownInitiatedByTransport rfl
  have hpeer := hnot .shutdownInitiatedByPeer rfl
  rw [List.countP_append, List.countP_append, hzero]
  rcases hinit with rfl | rfl | rfl <;> simp [ConnEvent.closes, htransport, hpeer]

/-- Behind an announced end, the events of a stream close it twice. -/
lemma countP_closes_lane {evs : List StreamEvent} (h : StreamOrder evs) :
    (none :: evs.map some).countP (fun ev => ev.any StreamEvent.closes) = 1
      ↔ some .peerSendShutdown ∉ none :: evs.map some := by
  rcases h with ⟨received, finished, rfl, hreceived, hfin⟩
  have hzero : received.countP StreamEvent.closes = 0 := by
    rw [List.countP_eq_zero]
    intro ev hev
    rcases hreceived ev hev with ⟨buffers, rfl⟩
    exact Bool.false_ne_true
  have hpeer : .peerSendShutdown ∉ received := by
    intro hmem
    exact List.countP_eq_zero.mp hzero _ hmem rfl
  have hcount (l : List StreamEvent) :
      (none :: l.map some).countP (fun ev => ev.any StreamEvent.closes)
        = l.countP StreamEvent.closes := by
    rw [List.countP_cons, List.countP_map]
    rfl
  rw [hcount, List.countP_append, List.countP_append, hzero]
  rcases hfin with rfl | rfl <;> simp [StreamEvent.closes, hpeer]

/-- What comes before something else comes before the end. -/
lemma mem_of_append_eq_concat {α : Type*} {l l' m : List α} {x y a : α}
    (h : l ++ x :: l' = m ++ [y]) (ha : a ∈ l) : a ∈ m := by
  have hm := congrArg List.dropLast h
  rw [List.dropLast_append_of_ne_nil (List.cons_ne_nil _ _), List.dropLast_concat] at hm
  rw [← hm]
  exact List.mem_append_left _ ha

/-- A stream that has not started has no handler yet. -/
lemma slot_of_start (h : Delivery ins) {id c : ℕ}
    (heq : ins = pre ++ .conn c (.peerStreamStarted id) :: post)
    (hrun : Trace (step cfg) {} pre s) : s.slot id = .unregistered := by
  have hlane : lane id ins = lane id pre ++ none :: lane id post := by
    rw [heq, lane_append]
    simp [lane]
  have hnil : lane id pre = [] := by
    rcases h.streams id with hempty | ⟨evs, hevs, -⟩
    · rw [hempty] at hlane
      simp at hlane
    · rw [hlane] at hevs
      cases hpre : lane id pre with
      | nil => rfl
      | cons x l =>
        rw [hpre] at hevs
        have hmem : none ∈ evs.map some := by
          rw [← (List.cons.inj hevs).2]
          simp
        simp at hmem
  have hat := laneAt_run hrun id
  rw [hnil] at hat
  cases hslot : s.slot id with
  | unregistered => rfl
  | registered ctx =>
    rw [hslot] at hat
    rcases hat with ⟨evs, hevs, -⟩
    cases hevs
  | retired =>
    rw [hslot] at hat
    rcases hat with ⟨evs, ev, hevs, -⟩
    cases hevs

/-- Where no end is announced, every event of a stream finds its context. -/
lemma slot_of_event (h : Delivery ins) (hquiet : Unannounced ins) {id : ℕ} {ev : StreamEvent}
    (heq : ins = pre ++ .stream id ev :: post) (hrun : Trace (step cfg) {} pre s) :
    ∃ ctx, s.slot id = .registered ctx := by
  have hlane : lane id ins = lane id pre ++ some ev :: lane id post := by
    rw [heq, lane_append]
    simp [lane]
  have hpeer := hquiet.stream id
  rcases h.streams id with hempty | ⟨evs, hevs, hend⟩
  · rw [hempty] at hlane
    simp at hlane
  rw [hevs] at hpeer
  rcases hend with ⟨received, finished, rfl, hreceived, hfin⟩
  have hfin' : finished = [] := by
    rcases hfin with hfin | rfl
    · exact hfin
    · simp at hpeer
  subst hfin'
  rw [hlane, List.append_nil, List.map_append] at hevs
  have hat := laneAt_run hrun id
  cases hslot : s.slot id with
  | unregistered =>
    rw [hslot] at hat
    rw [show lane id pre = [] from hat] at hevs
    cases (List.cons.inj hevs).1
  | registered ctx => exact ⟨ctx, rfl⟩
  | retired =>
    rw [hslot] at hat
    rcases hat with ⟨evs, d, hpre, hcloses⟩
    -- the event that closed the stream is not its last one
    rw [hpre, List.map_append, List.cons_append] at hevs
    have hmem : some d ∈ received.map some :=
      mem_of_append_eq_concat (List.cons.inj hevs).2 (by simp)
    rcases List.mem_map.mp hmem with ⟨d', hd', hdd⟩
    rcases hreceived d' hd' with ⟨buffers, rfl⟩
    rw [← Option.some.inj hdd] at hcloses
    cases hcloses

/-- Where no end is announced, the events of a delivery are all handled. -/
lemma exists_trace (h : Delivery ins) (hquiet : Unannounced ins) :
    ∀ pre, pre <+: ins → ∃ s, Trace (step cfg) {} pre s := by
  intro pre
  induction pre using List.reverseRecOn with
  | nil => exact fun _ => ⟨{}, .nil⟩
  | append_singleton pre i ih =>
    rintro ⟨post, hpost⟩
    have heq : ins = pre ++ i :: post := by
      rw [← hpost]
      simp
    rcases ih ⟨i :: post, heq.symm⟩ with ⟨s, hrun⟩
    have henabled : ∃ s', step cfg s i = some s' := by
      cases i with
      | conn c ev =>
        cases ev with
        | peerStreamStarted id =>
          have hslot := slot_of_start h heq hrun
          simp [step, connCb, hslot]
        | _ => exact ⟨_, rfl⟩
      | stream id ev =>
        rcases slot_of_event h hquiet heq hrun with ⟨ctx, hslot⟩
        simp [step, hslot]
    rcases henabled with ⟨s', hs'⟩
    exact ⟨s', .snoc hrun hs'⟩

/-- Where no end is announced, a connection is open until its last event. -/
lemma openUntilComplete (h : Delivery ins) (hquiet : Unannounced ins) (conn : ℕ) :
    OpenUntilComplete cfg ins conn := by
  intro pre post s heq hrun
  have hevents : connEvents conn ins
      = connEvents conn pre ++ .shutdownComplete :: connEvents conn post := by
    rw [heq, connEvents_append]
    simp [connEvents]
  rw [count_connectionClose hrun, List.countP_eq_zero]
  intro ev hev
  rcases h.conns conn with hempty | hend
  · rw [hempty] at hevents
    simp at hevents
  rcases hend with ⟨opened, initiated, hord, hopened, hinit⟩
  have hinit' : initiated = [] := by
    have htransport := hquiet.transport conn
    have hpeer := hquiet.peer conn
    rw [hord] at htransport hpeer
    rcases hinit with hinit | rfl | rfl
    · exact hinit
    · simp at htransport
    · simp at hpeer
  subst hinit'
  rw [List.append_nil, hevents] at hord
  rcases hopened ev (mem_of_append_eq_concat hord hev) with rfl | ⟨id, rfl⟩ <;>
    exact Bool.false_ne_true

/-- At the end of its events, the context of a stream has been deleted. -/
lemma retired_of_laneAt {evs : List StreamEvent} (h : StreamOrder evs) {slot : Slot}
    (hat : LaneAt (none :: evs.map some) slot) : slot = .retired := by
  cases slot with
  | unregistered => cases hat
  | registered ctx =>
    rcases hat with ⟨evs', heq, hopen⟩
    rcases h with ⟨received, finished, rfl, -⟩
    have hmem : some StreamEvent.shutdownComplete ∈ evs'.map some := by
      rw [← (List.cons.inj heq).2]
      simp
    rcases List.mem_map.mp hmem with ⟨ev, hev, hsome⟩
    have hcloses := hopen ev hev
    rw [Option.some.inj hsome] at hcloses
    cases hcloses
  | retired => rfl

end Deliveries

/-- **Exactly the announced ends are handled twice.** In a delivery every connection is closed
once, at its SHUTDOWN_COMPLETE, and every stream is closed and its context deleted once, before
no other event, iff no SHUTDOWN_INITIATED and no PEER_SEND_SHUTDOWN is delivered. -/
theorem closedOnce_iff {cfg : Config} {ins : List Input} (h : Delivery ins) :
    ClosedOnce cfg ins ↔ Unannounced ins := by
  constructor
  · rintro ⟨s, hrun, hconns, hstreams⟩
    have hconn (conn : ℕ) : .shutdownInitiatedByTransport ∉ connEvents conn ins
        ∧ .shutdownInitiatedByPeer ∉ connEvents conn ins := by
      rcases h.conns conn with hempty | hord
      · rw [hempty]
        exact ⟨List.not_mem_nil, List.not_mem_nil⟩
      · have hne : connEvents conn ins ≠ [] := by
          rcases hord with ⟨opened, initiated, heq, -⟩
          rw [heq]
          simp
        rw [← countP_closes hord, ← count_connectionClose hrun]
        exact (hconns conn hne).1
    refine ⟨fun conn => (hconn conn).1, fun conn => (hconn conn).2, fun id => ?_⟩
    rcases h.streams id with hempty | ⟨evs, hlane, hord⟩
    · rw [hempty]
      exact List.not_mem_nil
    · have hne : lane id ins ≠ [] := by
        rw [hlane]
        exact List.cons_ne_nil _ _
      have hone := (hstreams id hne).1
      rw [count_streamClose hrun, hlane] at hone
      rw [hlane]
      exact (countP_closes_lane hord).mp hone
  · intro hquiet
    have hex : ∃ s, Trace (step cfg) {} ins s := exists_trace h hquiet ins List.prefix_rfl
    rcases hex with ⟨s, hrun⟩
    refine ⟨s, hrun, fun conn hne => ⟨?_, openUntilComplete h hquiet conn⟩, fun id hne => ?_⟩
    · rw [count_connectionClose hrun]
      exact (countP_closes ((h.conns conn).resolve_left hne)).mpr
        ⟨hquiet.transport conn, hquiet.peer conn⟩
    · rcases (h.streams id).resolve_left hne with ⟨evs, hlane, hord⟩
      have hpeer := hquiet.stream id
      rw [hlane] at hpeer
      have hat := laneAt_run hrun id
      rw [count_streamClose hrun, hlane]
      rw [hlane] at hat
      exact ⟨(countP_closes_lane hord).mpr hpeer, retired_of_laneAt hord hat⟩

/-! ## A graceful close -/

/-- One record arrives on one stream, and the end of neither the stream nor the connection is
announced. -/
def abortiveClose : List Input :=
  [.conn 0 .connected, .conn 0 (.peerStreamStarted 1), .stream 1 (.receive [[1, 2], [3, 4]]),
    .stream 1 .shutdownComplete, .conn 0 .shutdownComplete]

/-- The peer ends the stream and then the connection. -/
def gracefulClose : List Input :=
  [.conn 0 .connected, .conn 0 (.peerStreamStarted 1), .stream 1 (.receive [[1, 2], [3, 4]]),
    .stream 1 .peerSendShutdown, .stream 1 .shutdownComplete,
    .conn 0 .shutdownInitiatedByPeer, .conn 0 .shutdownComplete]

/-- The handles of `abortiveClose` are closed once. -/
theorem closedOnce_iff_abortiveClose : ClosedOnce (start 4) abortiveClose := by
  have hconn (conn : ℕ) : conn = 0 ∨ connEvents conn abortiveClose = [] := by
    by_cases hc : 0 = conn
    · exact Or.inl hc.symm
    · exact Or.inr (by simp [connEvents, abortiveClose, hc])
  have hlane (id : ℕ) : id = 1 ∨ lane id abortiveClose = [] := by
    by_cases hid : 1 = id
    · exact Or.inl hid.symm
    · exact Or.inr (by simp [lane, abortiveClose, hid])
  have hdelivery : Delivery abortiveClose := by
    constructor
    · intro conn
      rcases hconn conn with rfl | hempty
      · exact Or.inr ⟨[.connected, .peerStreamStarted 1], [], rfl, by simp, Or.inl rfl⟩
      · exact Or.inl hempty
    · intro id
      rcases hlane id with rfl | hempty
      · exact Or.inr ⟨[.receive [[1, 2], [3, 4]], .shutdownComplete], rfl,
          [.receive [[1, 2], [3, 4]]], [], rfl, by simp, Or.inl rfl⟩
      · exact Or.inl hempty
  apply (closedOnce_iff hdelivery).mpr
  constructor
  · intro conn
    rcases hconn conn with rfl | hempty
    · simp [connEvents, abortiveClose]
    · simp [hempty]
  · intro conn
    rcases hconn conn with rfl | hempty
    · simp [connEvents, abortiveClose]
    · simp [hempty]
  · intro id
    rcases hlane id with rfl | hempty
    · simp [lane, abortiveClose]
    · simp [hempty]

/-- Those of `gracefulClose` are not: the events of the connection alone close it twice. -/
theorem not_closedOnce_gracefulClose :
    Delivery gracefulClose ∧ ¬ClosedOnce (start 4) gracefulClose
      ∧ ∃ s, Trace (step (start 4)) {}
          [.conn 0 .connected, .conn 0 .shutdownInitiatedByPeer, .conn 0 .shutdownComplete] s
        ∧ s.log = [.connectionClose 0, .connectionClose 0] := by
  refine ⟨⟨fun conn => ?_, fun id => ?_⟩, ?_, _, trace_of_foldlM rfl, rfl⟩
  · by_cases hc : 0 = conn
    · subst hc
      exact Or.inr ⟨[.connected, .peerStreamStarted 1], [.shutdownInitiatedByPeer], rfl,
        by simp, Or.inr (Or.inr rfl)⟩
    · exact Or.inl (by simp [connEvents, gracefulClose, hc])
  · by_cases hid : 1 = id
    · subst hid
      exact Or.inr ⟨[.receive [[1, 2], [3, 4]], .peerSendShutdown, .shutdownComplete], rfl,
        [.receive [[1, 2], [3, 4]]], [.peerSendShutdown], rfl, by simp, Or.inr rfl⟩
    · exact Or.inl (by simp [lane, gracefulClose, hid])
  · rintro ⟨s, hrun, hconns, -⟩
    have hone := (hconns 0 (List.cons_ne_nil _ _)).1
    rw [count_connectionClose hrun] at hone
    exact absurd hone (by decide)

end QuicKeys.Quic
