import Mathlib.Tactic.IntervalCases
import QuicKeys.Daemon.Threads

/-!
# The last report on the socket

When no handler owes a report, the last report on the socket should describe the current
key state. A capture and its send are separate steps, so a report can be overtaken: the
thread that captured it may send it after a later capture was sent. The last report is
right as long as the send that leaves no report owed is the one of the last capture.
-/

namespace QuicKeys.Daemon

/-- No handler is between its apply and its send. -/
def Quiescent (s : Sys) : Prop := ∀ t, ¬(s.phase t).owesReport

/-- The last report on the socket is the one built from the current key state; before the
first one, the guest holds nothing. -/
def Agrees (s : Sys) : Prop := s.socket.getLastD idleReport = reportOf s.keys

/-- The thread that captured last. -/
def lastCapturer (as : List Action) : Option ThreadId :=
  as.foldl (fun last a => match a with
    | .capture t => some t
    | _ => last) none

/-- A send after which no report is owed is the send of the last capture. -/
def SendsLastCapture (as : List Action) (s : Sys) (a : Action) : Prop :=
  ∀ t, a = .send t → (∀ u ≠ t, ¬(s.phase u).owesReport) → lastCapturer as = some t

@[simp] lemma lastCapturer_concat (as : List Action) (a : Action) :
    lastCapturer (as ++ [a])
      = match a with
        | .capture t => some t
        | _ => lastCapturer as := by
  rw [lastCapturer, List.foldl_append]
  rfl

/-! ## The invariant -/

/-- The last capture is still what the key state says, unless a handler has changed the
state since and not captured yet; and with no report owed, the last one is right. -/
structure ReportInv (as : List Action) (s : Sys) : Prop where
  fresh : ∀ t v mods, lastCapturer as = some t → s.phase t = .captured v mods →
    (∃ u, s.phase u = .applied) ∨ (v, mods) = capture s.keys
  agrees : Quiescent s → Agrees s

lemma reportInv_init : ReportInv [] {} where
  fresh t v mods h := by cases h
  agrees _ := (reportOf_empty rfl rfl).symm

section Steps

variable {args : Args} {as : List Action} {s s' : Sys} {t : ThreadId}

/-- The other threads stay where they are: who has yet to capture, say, still has to. -/
lemma exists_phase_setPhase {p q : Phase} (ht : s.phase t ≠ q) (h : ∃ u, s.phase u = q) :
    ∃ u, (s.setPhase t p).phase u = q := by
  rcases h with ⟨u, hu⟩
  have hne : u ≠ t := by
    rintro rfl
    exact ht hu
  exact ⟨u, by rw [setPhase_phase, if_neg hne, hu]⟩

/-- If nobody owes a report after a step of a thread that did not owe one, nobody did
before it. -/
lemma quiescent_of_setPhase {p : Phase} (ht : ¬(s.phase t).owesReport)
    (h : ∀ u, ¬((s.setPhase t p).phase u).owesReport) : Quiescent s := by
  intro u
  have hu := h u
  rw [setPhase_phase] at hu
  split at hu
  · rename_i hut
    rw [hut]
    exact ht
  · exact hu

lemma reportInv_read {e : Event} (h : ReportInv as s)
    (hstep : sysStep args s (.read t e) = some s') : ReportInv (as ++ [.read t e]) s' := by
  rcases sysStep_read hstep with ⟨hidle, -, -, rfl⟩
  constructor
  · intro u v mods hlast hu
    rw [lastCapturer_concat] at hlast
    rw [setPhase_phase] at hu
    split at hu
    · cases hu
    · exact (h.fresh u v mods hlast hu).imp_left (exists_phase_setPhase (by simp [hidle]))
  · intro hq
    refine h.agrees (quiescent_of_setPhase ?_ hq)
    rw [hidle]
    exact id

lemma reportInv_apply (h : ReportInv as s) (hstep : sysStep args s (.apply t) = some s') :
    ReportInv (as ++ [.apply t]) s' := by
  rcases sysStep_apply hstep with ⟨e, hstamped, rfl⟩
  cases hemit : (handle args s.keys e).emit with
  | true =>
    -- the thread owes a report now, so the old ones need not be right any more
    have hphase : (s.setPhase t .applied).phase t = .applied := by
      rw [setPhase_phase, if_pos rfl]
    constructor
    · intro u v mods _ _
      exact Or.inl ⟨t, hphase⟩
    · intro hq
      refine absurd ?_ (hq t)
      show ((s.setPhase t .applied).phase t).owesReport
      rw [hphase]
      trivial
  | false =>
    -- no report is owed because neither the keys nor the modifiers have changed
    rcases quiet_of_not_emit hemit with ⟨hpressed, hmods⟩
    rw [if_neg Bool.false_ne_true]
    constructor
    · intro u v mods hlast hu
      rw [lastCapturer_concat] at hlast
      dsimp only at hu ⊢
      rw [setPhase_phase] at hu
      split at hu
      · cases hu
      · rw [capture_congr hpressed hmods]
        exact (h.fresh u v mods hlast hu).imp_left (exists_phase_setPhase (by simp [hstamped]))
    · intro hq
      show s.socket.getLastD idleReport = reportOf (step args s.keys e)
      rw [reportOf_congr hpressed hmods]
      refine h.agrees (quiescent_of_setPhase ?_ hq)
      rw [hstamped]
      exact id

lemma reportInv_capture (hstep : sysStep args s (.capture t) = some s') :
    ReportInv (as ++ [.capture t]) s' := by
  rcases sysStep_capture hstep with ⟨happlied, rfl⟩
  have hphase := setPhase_phase s t t (.captured (capture s.keys).1 (capture s.keys).2)
  rw [if_pos rfl] at hphase
  constructor
  · intro u v mods hlast hu
    rw [lastCapturer_concat] at hlast
    obtain rfl : t = u := Option.some.inj hlast
    rw [hphase] at hu
    cases hu
    exact Or.inr rfl
  · intro hq
    refine absurd ?_ (hq t)
    rw [hphase]
    trivial

lemma reportInv_send (h : ReportInv as s) (hC : SendsLastCapture as s (.send t))
    (hstep : sysStep args s (.send t) = some s') : ReportInv (as ++ [.send t]) s' := by
  rcases sysStep_send hstep with ⟨v, mods, hcaptured, rfl⟩
  constructor
  · intro u v' mods' hlast hu
    rw [lastCapturer_concat] at hlast
    rw [setPhase_phase] at hu
    split at hu
    · cases hu
    · exact (h.fresh u v' mods' hlast hu).imp_left (exists_phase_setPhase (by simp [hcaptured]))
  · intro hq
    have hothers : ∀ u ≠ t, ¬(s.phase u).owesReport := by
      intro u hu
      have hu' := hq u
      rwa [setPhase_phase, if_neg hu] at hu'
    -- `t` captured last, and nobody has applied a change without capturing it since
    have hfresh := h.fresh t v mods (hC t rfl hothers) hcaptured
    have hnone : ¬∃ u, s.phase u = .applied := by
      intro hex
      rcases hex with ⟨u, hu⟩
      by_cases hut : u = t
      · rw [hut, hcaptured] at hu
        cases hu
      · refine hothers u hut ?_
        rw [hu]
        trivial
    have heq := hfresh.resolve_left hnone
    show (s.socket ++ [buildHidReport v mods]).getLastD idleReport = reportOf s.keys
    rw [List.getLastD_concat, reportOf, ← heq]

/-- **Step lemma.** -/
lemma reportInv_step {a : Action} (h : ReportInv as s) (hC : SendsLastCapture as s a)
    (hstep : sysStep args s a = some s') : ReportInv (as ++ [a]) s' := by
  cases a with
  | read t e => exact reportInv_read h hstep
  | apply t => exact reportInv_apply h hstep
  | capture t => exact reportInv_capture hstep
  | send t => exact reportInv_send h hC hstep

end Steps

/-- **Guest and daemon agree** in every quiescent state of a run in which each send that
leaves no report owed is the send of the last capture. -/
theorem agrees_of_sendsLastCapture {args : Args} {as : List Action} {s : Sys}
    (hrun : Runs.Trace (sysStep args) {} as s)
    (hC : Runs.Meets (sysStep args) {} SendsLastCapture as) (hq : Quiescent s) : Agrees s :=
  (hrun.invariant (I := ReportInv) reportInv_init
    (fun _ _ _ _ _ hinv hc hstep => reportInv_step hinv hc hstep) hC).agrees hq

/-! ## Two orders of the same handlers -/

/-- A press of `a` on one QUIC worker and an empty snapshot on another: the captures are
sent in the order in which they were made. -/
def sentInOrder : List Action :=
  [.read (.quic 0) (edgeA true 0 1), .apply (.quic 0), .read (.quic 1) (snapshotNone 2),
    .apply (.quic 1), .capture (.quic 0), .send (.quic 0), .capture (.quic 1), .send (.quic 1)]

/-- The same handlers, but the press is sent after the snapshot. -/
def sentLate : List Action :=
  [.read (.quic 0) (edgeA true 0 1), .apply (.quic 0), .capture (.quic 0),
    .read (.quic 1) (snapshotNone 2), .apply (.quic 1), .capture (.quic 1), .send (.quic 1),
    .send (.quic 0)]

lemma quiescent_sentInOrder :
    ∃ s, Runs.Trace (sysStep {}) {} sentInOrder s ∧ Quiescent s := by
  refine ⟨_, Runs.trace_of_foldlM rfl, fun t => ?_⟩
  match t with
  | .udp => exact id
  | .watchdog => exact id
  | .quic 0 => exact id
  | .quic 1 => exact id
  | .quic (n + 2) => exact id

/-- Sent in order, the reports leave the guest with the current state. -/
theorem agrees_of_sendsLastCapture_sentInOrder :
    ∃ s, Runs.Trace (sysStep {}) {} sentInOrder s ∧ Quiescent s ∧ Agrees s := by
  rcases quiescent_sentInOrder with ⟨s, hrun, hq⟩
  refine ⟨s, hrun, hq, agrees_of_sendsLastCapture hrun ?_ hq⟩
  intro pre a post s' hes _ t heq _
  subst heq
  have hlen : pre.length < 8 := by
    have := congrArg List.length hes
    simp [sentInOrder] at this
    omega
  have hpre : pre = sentInOrder.take pre.length := by simp [hes]
  have ha : sentInOrder[pre.length]? = some (.send t) := by simp [hes]
  rw [hpre]
  generalize pre.length = n at *
  interval_cases n <;> simp_all [sentInOrder, lastCapturer]

/-- Sent late, the press is the last report although nothing is pressed any more. -/
theorem not_agrees_sentLate :
    ∃ s, Runs.Trace (sysStep {}) {} sentLate s ∧ Quiescent s ∧ ¬Agrees s := by
  refine ⟨_, Runs.trace_of_foldlM rfl, fun t => ?_, ?_⟩
  · match t with
    | .udp => exact id
    | .watchdog => exact id
    | .quic 0 => exact id
    | .quic 1 => exact id
    | .quic (n + 2) => exact id
  · unfold Agrees
    decide

end QuicKeys.Daemon
