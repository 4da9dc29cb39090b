import QuicKeys.Daemon.Handlers

/-!
# The threads of the daemon

The receive loop, the monitor thread and the worker threads of the two QUIC listeners run
their handlers concurrently. A handler has four steps that other threads can get between:

* it reads the monotonic clock, before it takes any lock;
* it applies its change under `state_mu`, and is done if it has no report to send;
* it takes `state_mu` again and captures up to six usages and the modifiers;
* it sends the report built from the capture, outside the lock.

`sysStep` runs one such step of one thread. Sends succeed and put their 8 bytes on the
socket at once.
-/

namespace QuicKeys.Daemon

/-- The threads that run handlers; each QUIC worker has a number. -/
inductive ThreadId
  | udp
  | watchdog
  | quic (n : ℕ)
deriving DecidableEq

/-- Which handlers a thread runs. -/
def ThreadId.serves : ThreadId → Message → Bool
  | .udp, .datagram _ => true
  | .watchdog, .tick => true
  | .quic _, .snapshot _ => true
  | .quic _, .quicEdge _ => true
  | _, _ => false

/-- Where a thread is in its handler. -/
inductive Phase
  | idle
  | stamped (e : Event)
  | applied
  | captured (v : List UInt8) (mods : UInt8)

/-- Between the apply and the send. -/
def Phase.owesReport : Phase → Prop
  | .idle => False
  | .stamped _ => False
  | .applied => True
  | .captured .. => True

/-- The shared state, the threads, the latest clock reading and the reports on the socket.
`history` records the events in the order of their critical sections; no step reads it. -/
structure Sys where
  keys : KeyState := {}
  phase : ThreadId → Phase := fun _ => .idle
  clock : UInt64 := 0
  socket : List HidReport8 := []
  history : List Event := []

/-- One step of one thread. -/
inductive Action
  | read (t : ThreadId) (e : Event)
  | apply (t : ThreadId)
  | capture (t : ThreadId)
  | send (t : ThreadId)

/-- The thread `t` moves on to phase `p`. -/
def Sys.setPhase (s : Sys) (t : ThreadId) (p : Phase) : Sys :=
  { s with phase := Function.update s.phase t p }

/-- The steps of the threads; `none` if the thread is not at this step. -/
def sysStep (args : Args) (s : Sys) : Action → Option Sys
  | .read t e =>
    match s.phase t with
    | .idle =>
      -- the clock does not run backwards
      if t.serves e.msg ∧ s.clock ≤ e.now then
        some { s.setPhase t (.stamped e) with clock := e.now }
      else none
    | _ => none
  | .apply t =>
    match s.phase t with
    | .stamped e =>
      -- the change and the decision to send are made under one lock
      some { s.setPhase t (if (handle args s.keys e).emit then .applied else .idle) with
        keys := step args s.keys e
        history := s.history ++ [e] }
    | _ => none
  | .capture t =>
    match s.phase t with
    -- a second critical section: other handlers may have run since the first
    | .applied => some (s.setPhase t (.captured (capture s.keys).1 (capture s.keys).2))
    | _ => none
  | .send t =>
    match s.phase t with
    | .captured v mods =>
      some { s.setPhase t .idle with socket := s.socket ++ [buildHidReport v mods] }
    | _ => none

/-! ## What a step can do -/

lemma setPhase_phase (s : Sys) (t u : ThreadId) (p : Phase) :
    (s.setPhase t p).phase u = if u = t then p else s.phase u :=
  Function.update_apply s.phase t p u

section Inversion

variable {args : Args} {s s' : Sys} {t : ThreadId}

lemma sysStep_read {e : Event} (h : sysStep args s (.read t e) = some s') :
    s.phase t = .idle ∧ t.serves e.msg = true ∧ s.clock ≤ e.now
      ∧ s' = { s.setPhase t (.stamped e) with clock := e.now } := by
  rw [sysStep] at h
  split at h
  · rename_i hphase
    split at h
    · rename_i hguard
      exact ⟨hphase, hguard.1, hguard.2, (Option.some.inj h).symm⟩
    · cases h
  · cases h

lemma sysStep_apply (h : sysStep args s (.apply t) = some s') :
    ∃ e, s.phase t = .stamped e
      ∧ s' = { s.setPhase t (if (handle args s.keys e).emit then .applied else .idle) with
          keys := step args s.keys e
          history := s.history ++ [e] } := by
  rw [sysStep] at h
  split at h
  · rename_i e hphase
    exact ⟨e, hphase, (Option.some.inj h).symm⟩
  · cases h

lemma sysStep_capture (h : sysStep args s (.capture t) = some s') :
    s.phase t = .applied
      ∧ s' = s.setPhase t (.captured (capture s.keys).1 (capture s.keys).2) := by
  rw [sysStep] at h
  split at h
  · rename_i hphase
    exact ⟨hphase, (Option.some.inj h).symm⟩
  · cases h

lemma sysStep_send (h : sysStep args s (.send t) = some s') :
    ∃ v mods, s.phase t = .captured v mods
      ∧ s' = { s.setPhase t .idle with socket := s.socket ++ [buildHidReport v mods] } := by
  rw [sysStep] at h
  split at h
  · rename_i v mods hphase
    exact ⟨v, mods, hphase, (Option.some.inj h).symm⟩
  · cases h

end Inversion

/-! ## The critical sections, one after the other -/

/-- The key state is the one the sequential handlers compute from the history. -/
def Linearized (args : Args) (s : Sys) : Prop := s.keys = run args s.history

/-- **Step lemma.** Only `apply` touches the key state, and it is one sequential step. -/
lemma linearized_step {args : Args} {s s' : Sys} {a : Action} (h : Linearized args s)
    (hstep : sysStep args s a = some s') : Linearized args s' := by
  cases a with
  | read t e =>
    rcases sysStep_read hstep with ⟨-, -, -, rfl⟩
    exact h
  | apply t =>
    rcases sysStep_apply hstep with ⟨e, -, rfl⟩
    show step args s.keys e = run args (s.history ++ [e])
    rw [run_concat, ← h]
  | capture t =>
    rcases sysStep_capture hstep with ⟨-, rfl⟩
    exact h
  | send t =>
    rcases sysStep_send hstep with ⟨v, mods, -, rfl⟩
    exact h

/-- **Linearization.** Whatever the interleaving, the key state is that of the handlers run
one after the other, in the order of their critical sections. -/
theorem linearized_of_trace {args : Args} {as : List Action} {s : Sys}
    (h : Runs.Trace (sysStep args) {} as s) : Linearized args s := by
  induction h with
  | nil => rfl
  | snoc _ enabled ih => exact linearized_step ih enabled

end QuicKeys.Daemon
