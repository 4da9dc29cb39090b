import Mathlib.Data.Finset.Card
import QuicKeys.Daemon.LastReport

/-!
# Reports in every interleaving

A report may reach the socket after a later one. But none is made up, and none is lost:
whatever the interleaving, each report on the socket shows a state that the handlers went
through, each handler that changed something has sent one report once it is done, and the
last change was captured and sent by somebody.
-/

namespace QuicKeys.Daemon

variable {args : Args} {s s' : Sys} {t : ThreadId}

/-- A state that the handlers of the history went through has this capture. -/
def WasCaptured (args : Args) (history : List Event) (c : List UInt8 × UInt8) : Prop :=
  ∃ pre, pre <+: history ∧ c = capture (run args pre)

/-- What holds in every reachable state. -/
structure SocketInv (args : Args) (s : Sys) : Prop where
  linearized : Linearized args s
  /-- reports show states of the history -/
  sent : ∀ r ∈ s.socket, ∃ c, WasCaptured args s.history c ∧ r = buildHidReport c.1 c.2
  captured : ∀ t v mods, s.phase t = .captured v mods → WasCaptured args s.history (v, mods)
  /-- who owes a report has not sent it yet, and all others have -/
  owed : ∃ ts : Finset ThreadId, (∀ t, t ∈ ts ↔ (s.phase t).owesReport)
    ∧ s.socket.length + ts.card = (reports args {} s.history).length
  /-- the current state was sent, or will be -/
  current : reports args {} s.history ≠ [] →
    reportOf s.keys ∈ s.socket ∨ (∃ t, s.phase t = .applied)
      ∨ ∃ t, s.phase t = .captured (capture s.keys).1 (capture s.keys).2

lemma socketInv_init (args : Args) : SocketInv args {} where
  linearized := rfl
  sent _ h := absurd h List.not_mem_nil
  captured _ _ _ h := by cases h
  owed := ⟨∅, fun _ => iff_of_false (Finset.notMem_empty _) id, rfl⟩
  current h := absurd rfl h

lemma WasCaptured.mono {history : List Event} {c : List UInt8 × UInt8}
    (h : WasCaptured args history c) (e : Event) : WasCaptured args (history ++ [e]) c := by
  rcases h with ⟨pre, hpre, hc⟩
  exact ⟨pre, hpre.trans (List.prefix_append _ _), hc⟩

/-! ## One step -/

/-- A thread that owes a report owes one until it has sent it. -/
lemma owed_setPhase {p : Phase} {ts : Finset ThreadId}
    (hts : ∀ u, u ∈ ts ↔ (s.phase u).owesReport) (hp : p.owesReport ↔ (s.phase t).owesReport)
    (u : ThreadId) : u ∈ ts ↔ ((s.setPhase t p).phase u).owesReport := by
  rw [setPhase_phase, hts]
  split
  next hu => rw [hu, hp]
  next => exact Iff.rfl

lemma socketInv_read {e : Event} (h : SocketInv args s)
    (hstep : sysStep args s (.read t e) = some s') : SocketInv args s' := by
  rcases sysStep_read hstep with ⟨hidle, -, -, rfl⟩
  refine ⟨h.linearized, h.sent, fun u v mods hu => ?_, ?_, fun hne => ?_⟩
  · dsimp only at hu
    rw [setPhase_phase] at hu
    split at hu
    · cases hu
    · exact h.captured u v mods hu
  · rcases h.owed with ⟨ts, hts, hcard⟩
    exact ⟨ts, owed_setPhase hts (by rw [hidle]; exact Iff.rfl), hcard⟩
  · rcases h.current hne with hsent | happlied | hcaptured
    · exact Or.inl hsent
    · exact Or.inr (Or.inl (exists_phase_setPhase (by simp [hidle]) happlied))
    · exact Or.inr (Or.inr (exists_phase_setPhase (by simp [hidle]) hcaptured))

/-- A handler with something to report owes one report more. -/
lemma socketInv_apply_emit {e : Event} (h : SocketInv args s) (hstamped : s.phase t = .stamped e)
    (hemit : (handle args s.keys e).emit = true) :
    SocketInv args { s.setPhase t .applied with
      keys := step args s.keys e
      history := s.history ++ [e] } := by
  have hreports : (reports args {} (s.history ++ [e])).length
      = (reports args {} s.history).length + 1 := by
    have hkeys : s.history.foldl (step args) {} = s.keys := h.linearized.symm
    rw [reports_concat, hkeys, emitted, if_pos hemit, List.length_append]
    rfl
  refine ⟨?_, fun r hr => ?_, fun u v mods hu => ?_, ?_, fun _ => Or.inr (Or.inl ⟨t, ?_⟩)⟩
  · show step args s.keys e = run args (s.history ++ [e])
    rw [run_concat, ← h.linearized]
  · rcases h.sent r hr with ⟨c, hc, hrc⟩
    exact ⟨c, hc.mono e, hrc⟩
  · dsimp only at hu
    rw [setPhase_phase] at hu
    split at hu
    · cases hu
    · exact (h.captured u v mods hu).mono e
  · rcases h.owed with ⟨ts, hts, hcard⟩
    have ht : t ∉ ts := by
      rw [hts, hstamped]
      exact id
    refine ⟨insert t ts, fun u => ?_, ?_⟩
    · dsimp only
      rw [Finset.mem_insert, setPhase_phase]
      split
      next hu => exact iff_of_true (Or.inl hu) trivial
      next hu => rw [or_iff_right hu, hts]
    · show s.socket.length + (insert t ts).card = _
      rw [Finset.card_insert_of_notMem ht, hreports, ← hcard, Nat.add_assoc]
  · show (s.setPhase t .applied).phase t = _
    rw [setPhase_phase, if_pos rfl]

/-- A handler with nothing to report has changed nothing that reports show. -/
lemma socketInv_apply_quiet {e : Event} (h : SocketInv args s) (hstamped : s.phase t = .stamped e)
    (hemit : (handle args s.keys e).emit = false) :
    SocketInv args { s.setPhase t .idle with
      keys := step args s.keys e
      history := s.history ++ [e] } := by
  rcases quiet_of_not_emit hemit with ⟨hpressed, hmods⟩
  have hreports : reports args {} (s.history ++ [e]) = reports args {} s.history := by
    have hkeys : s.history.foldl (step args) {} = s.keys := h.linearized.symm
    rw [reports_concat, hkeys, emitted, hemit, if_neg Bool.false_ne_true]
    exact List.append_nil _
  refine ⟨?_, fun r hr => ?_, fun u v mods hu => ?_, ?_, fun hne => ?_⟩
  · show step args s.keys e = run args (s.history ++ [e])
    rw [run_concat, ← h.linearized]
  · rcases h.sent r hr with ⟨c, hc, hrc⟩
    exact ⟨c, hc.mono e, hrc⟩
  · dsimp only at hu
    rw [setPhase_phase] at hu
    split at hu
    · cases hu
    · exact (h.captured u v mods hu).mono e
  · rcases h.owed with ⟨ts, hts, hcard⟩
    refine ⟨ts, owed_setPhase hts (by rw [hstamped]; exact Iff.rfl), ?_⟩
    rw [hreports]
    exact hcard
  · dsimp only at hne ⊢
    rw [hreports] at hne
    rw [reportOf_congr hpressed hmods, capture_congr hpressed hmods]
    rcases h.current hne with hsent | happlied | hcaptured
    · exact Or.inl hsent
    · exact Or.inr (Or.inl (exists_phase_setPhase (by simp [hstamped]) happlied))
    · exact Or.inr (Or.inr (exists_phase_setPhase (by simp [hstamped]) hcaptured))

lemma socketInv_capture (h : SocketInv args s)
    (hstep : sysStep args s (.capture t) = some s') : SocketInv args s' := by
  rcases sysStep_capture hstep with ⟨happlied, rfl⟩
  refine ⟨h.linearized, h.sent, fun u v mods hu => ?_, ?_, fun _ => Or.inr (Or.inr ⟨t, ?_⟩)⟩
  · rw [setPhase_phase] at hu
    split at hu
    · cases hu
      exact ⟨s.history, List.prefix_rfl, congrArg capture h.linearized⟩
    · exact h.captured u v mods hu
  · rcases h.owed with ⟨ts, hts, hcard⟩
    exact ⟨ts, owed_setPhase hts (by rw [happlied]; exact Iff.rfl), hcard⟩
  · rw [setPhase_phase, if_pos rfl]
    rfl

lemma socketInv_send (h : SocketInv args s) (hstep : sysStep args s (.send t) = some s') :
    SocketInv args s' := by
  rcases sysStep_send hstep with ⟨v, mods, hcaptured, rfl⟩
  refine ⟨h.linearized, fun r hr => ?_, fun u v' mods' hu => ?_, ?_, fun hne => ?_⟩
  · rcases List.mem_append.mp hr with hr | hr
    · exact h.sent r hr
    · rw [List.mem_singleton.mp hr]
      exact ⟨(v, mods), h.captured t v mods hcaptured, rfl⟩
  · dsimp only at hu
    rw [setPhase_phase] at hu
    split at hu
    · cases hu
    · exact h.captured u v' mods' hu
  · rcases h.owed with ⟨ts, hts, hcard⟩
    have ht : t ∈ ts := by
      rw [hts, hcaptured]
      trivial
    refine ⟨ts.erase t, fun u => ?_, ?_⟩
    · dsimp only
      rw [Finset.mem_erase, setPhase_phase]
      split
      next hu => exact iff_of_false (fun hmem => hmem.1 hu) id
      next hu => rw [and_iff_right hu, hts]
    · have hpos := Finset.card_pos.mpr ⟨t, ht⟩
      show (s.socket ++ [buildHidReport v mods]).length + (ts.erase t).card = _
      rw [Finset.card_erase_of_mem ht, List.length_append, List.length_singleton]
      show _ = (reports args {} s.history).length
      omega
  · show _ ∈ s.socket ++ _ ∨ _
    rcases h.current hne with hsent | happlied | ⟨u, hu⟩
    · exact Or.inl (List.mem_append_left _ hsent)
    · exact Or.inr (Or.inl (exists_phase_setPhase (by simp [hcaptured]) happlied))
    -- the capture of the current state is sent now, or waits for its own thread
    · by_cases hut : u = t
      · rw [hut, hcaptured] at hu
        cases hu
        exact Or.inl (List.mem_append_right _ (List.mem_singleton_self _))
      · refine Or.inr (Or.inr ⟨u, ?_⟩)
        show (s.setPhase t .idle).phase u = _
        rw [setPhase_phase, if_neg hut, hu]
        rfl

/-- **Step lemma.** -/
lemma socketInv_step {a : Action} (h : SocketInv args s) (hstep : sysStep args s a = some s') :
    SocketInv args s' := by
  cases a with
  | read t e => exact socketInv_read h hstep
  | apply t =>
    rcases sysStep_apply hstep with ⟨e, hstamped, rfl⟩
    cases hemit : (handle args s.keys e).emit with
    | true => exact socketInv_apply_emit h hstamped hemit
    | false => exact socketInv_apply_quiet h hstamped hemit
  | capture t => exact socketInv_capture h hstep
  | send t => exact socketInv_send h hstep

/-! ## Runs -/

/-- **Run lemma.** -/
lemma socketInv_of_trace {as : List Action} (h : Runs.Trace (sysStep args) {} as s) :
    SocketInv args s := by
  induction h with
  | nil => exact socketInv_init args
  | snoc _ enabled ih => exact socketInv_step ih enabled

/-- **No report is made up, and none is lost.** In every interleaving each report on the
socket shows a state that the handlers, taken in the order of their critical sections, went
through. When no handler is under way, there are as many of them as the handlers run one
after the other send, and the last of those is among them. -/
theorem reports_of_trace {as : List Action} (hrun : Runs.Trace (sysStep args) {} as s) :
    (∀ r ∈ s.socket, ∃ pre, pre <+: s.history ∧ r = reportOf (run args pre))
      ∧ ((∀ t, ¬(s.phase t).owesReport) →
        s.socket.length = (reports args {} s.history).length
          ∧ ∀ r ∈ (reports args {} s.history).getLast?, r ∈ s.socket) := by
  have hinv := socketInv_of_trace hrun
  refine ⟨fun r hr => ?_, fun hdone => ⟨?_, fun r hr => ?_⟩⟩
  · rcases hinv.sent r hr with ⟨c, ⟨pre, hpre, rfl⟩, hrc⟩
    exact ⟨pre, hpre, hrc⟩
  · rcases hinv.owed with ⟨ts, hts, hcard⟩
    have hempty : ts = ∅ := Finset.eq_empty_of_forall_notMem fun t ht => hdone t ((hts t).mp ht)
    rw [← hcard, hempty, Finset.card_empty, Nat.add_zero]
  · have hne : reports args {} s.history ≠ [] := by
      intro hnil
      rw [hnil] at hr
      cases hr
    have hcurrent : r = reportOf s.keys := by
      rw [show s.keys = _ from hinv.linearized]
      exact eq_reportOf_of_mem_getLast? args {} s.history r hr
    rw [hcurrent]
    rcases hinv.current hne with hsent | ⟨t, ht⟩ | ⟨t, ht⟩
    · exact hsent
    · refine absurd ?_ (hdone t)
      rw [ht]
      trivial
    · refine absurd ?_ (hdone t)
      rw [ht]
      trivial

/-- A press that is sent late is followed by nothing, but the release was sent before it. -/
theorem reports_of_trace_sentLate :
    ∃ s, Runs.Trace (sysStep {}) {} sentLate s ∧ s.socket.length = 2 ∧ idleReport ∈ s.socket := by
  have hrun : Runs.Trace (sysStep {}) {} sentLate _ := Runs.trace_of_foldlM rfl
  have h := (reports_of_trace hrun).2 fun t => match t with
    | .udp => id
    | .watchdog => id
    | .quic 0 => id
    | .quic 1 => id
    | .quic (_ + 2) => id
  exact ⟨_, hrun, h.1, h.2 idleReport (by decide)⟩

end QuicKeys.Daemon
