import QuicKeys.Daemon.Handlers

/-!
# How many lines there can be

A line about a key uses something up: a `[heal]` line the marker of the key, a `[stuck]`
line the edge since which the key was not reported, a `[watchdog]` line the key's place in the
pressed set. So over a run there are at most as many lines about a key as there were
markers, edges and appearances.
-/

namespace QuicKeys.Daemon

open Runs

/-! ## The lines of a run -/

/-- The lines of handlers that run one after the other from `s` on. -/
def logOf (args : Args) : KeyState → List Event → List LogLine
  | _, [] => []
  | s, e :: es => (handle args s e).log ++ logOf args (step args s e) es

/-- A `[heal]` line about `u`. -/
def LogLine.heals (u : UInt8) : LogLine → Bool
  | .heal key _ => key == u
  | _ => false

/-- A `[stuck]` line about `u`. -/
def LogLine.reportsStuck (u : UInt8) : LogLine → Bool
  | .stuck key _ => key == u
  | _ => false

/-- A `[watchdog]` line about `u`. -/
def LogLine.releases (u : UInt8) : LogLine → Bool
  | .watchdog key _ => key == u
  | _ => false

/-- A line about an edge that was accepted or dropped. -/
def LogLine.ofEdge : LogLine → Bool
  | .heal .. | .stuck .. | .watchdog .. => false
  | .drop .. | .dropQuicEdge .. | .lat .. | .latQuicEdge .. => true

/-- A keyup marker for `u`. -/
def marksKey (args : Args) (u : UInt8) (e : Event) : Bool :=
  match effectOf args e with
  | .mark usage _ => usage == u
  | _ => false

/-- An accepted edge for `u`. -/
def edgesKey (args : Args) (u : UInt8) (e : Event) : Bool :=
  match effectOf args e with
  | .edge _ _ usage => usage == u
  | _ => false

/-! ## The lines of one handler -/

/-- The lines of a visit of the monitor. -/
def visitLines (args : Args) (now : UInt64) (u : UInt8) (km : KeyMeta) : List LogLine :=
  (if stuckDue args now km then [.stuck u (nsToMs (now - km.lastEdgeNs))] else [])
    ++ if expired args now km then [.watchdog u (nsToMs (now - km.lastSnapshotNs))] else []

section Lines

variable {args : Args} {now : UInt64} {s : KeyState} {e : Event}

lemma mem_visitLines {u : UInt8} {km : KeyMeta} {line : LogLine} :
    line ∈ visitLines args now u km
      ↔ stuckDue args now km = true ∧ line = .stuck u (nsToMs (now - km.lastEdgeNs))
        ∨ expired args now km = true ∧ line = .watchdog u (nsToMs (now - km.lastSnapshotNs)) := by
  rw [visitLines, List.mem_append, List.mem_ite_nil_right, List.mem_ite_nil_right,
    List.mem_singleton, List.mem_singleton]

lemma log_visit (o : Outcome) (u : UInt8) :
    (visit args now o u).log = o.log ++ visitLines args now u (o.state.keymeta u) := by
  have hstamp : ((checkStuck args now o u).state.keymeta u).lastSnapshotNs
      = (o.state.keymeta u).lastSnapshotNs := by
    rw [checkStuck_keymeta, if_pos rfl]
  have hlog : (checkStuck args now o u).log = o.log
      ++ if stuckDue args now (o.state.keymeta u) then
        [.stuck u (nsToMs (now - (o.state.keymeta u).lastEdgeNs))]
      else [] := by
    unfold checkStuck
    split
    · rfl
    · exact (List.append_nil _).symm
  rw [visit, checkWatchdog, expired_checkStuck, hstamp, visitLines, ← List.append_assoc, ← hlog]
  split
  · rfl
  · exact (List.append_nil _).symm

/-- **The lines of a round**: those of the visits, in the order of the set. -/
lemma log_watchdogTick (args : Args) (now : UInt64) (s : KeyState) :
    (watchdogTick args now s).log
      = s.pressed.toList.flatMap fun u => visitLines args now u (s.keymeta u) := by
  have hscan : ∀ (it : List UInt8) (o : Outcome), it.Nodup →
      (it.foldl (visit args now) o).log
        = o.log ++ it.flatMap fun u => visitLines args now u (o.state.keymeta u) := by
    intro it o hnd
    induction it generalizing o with
    | nil => exact (List.append_nil _).symm
    | cons v it ih =>
      rcases List.nodup_cons.mp hnd with ⟨hv, hnd'⟩
      have hrest :
          (it.flatMap fun u => visitLines args now u ((visit args now o v).state.keymeta u))
          = it.flatMap fun u => visitLines args now u (o.state.keymeta u) := by
        refine List.flatMap_congr fun u hu => ?_
        rw [visit_keymeta, if_neg (ne_of_mem_of_not_mem hu hv)]
      rw [List.foldl_cons, ih _ hnd', hrest, log_visit, List.flatMap_cons, List.append_assoc]
  exact (hscan _ _ s.pressed.nodup).trans (List.nil_append _)

/-- Each of them reports a key that is held, or its release. -/
lemma exists_of_mem_log_watchdogTick {line : LogLine} (h : line ∈ (watchdogTick args now s).log) :
    ∃ u ∈ s.pressed, ∃ ageMs, 0 ≤ ageMs
      ∧ (line = .stuck u ageMs
        ∨ expired args now (s.keymeta u) = true ∧ line = .watchdog u ageMs) := by
  rw [log_watchdogTick] at h
  rcases List.mem_flatMap.mp h with ⟨u, hu, hline⟩
  refine ⟨u, UnorderedSet.mem_toList.mp hu, ?_⟩
  rcases mem_visitLines.mp hline with ⟨-, hstuck⟩ | ⟨hexpired, hwatchdog⟩
  · exact ⟨_, nsToMs_nonneg _, Or.inl hstuck⟩
  · exact ⟨_, nsToMs_nonneg _, Or.inr ⟨hexpired, hwatchdog⟩⟩

/-- **The lines of a snapshot**, in the order of the old set. -/
lemma log_reconcile (now : UInt64) (mods : UInt8) (keys : UnorderedSet UInt8) (s : KeyState) :
    (reconcile now mods keys s).2
      = s.pressed.toList.flatMap fun u => healLine now keys u (s.keymeta u) := by
  show (Sweep.sweep _ _ keys.toList _).2 = _
  rw [Sweep.sweep_snd keys.nodup, Sweep.sweep_snd s.pressed.nodup]
  simp

/-- **Where lines come from**: the lines about keys that are held are those of snapshots and of
rounds. -/
lemma log_handle (args : Args) (s : KeyState) (e : Event) :
    match effectOf args e with
    | .snapshot _ keys =>
      (handle args s e).log
        = s.pressed.toList.flatMap fun u => healLine e.now keys u (s.keymeta u)
    | .scan =>
      (handle args s e).log
        = s.pressed.toList.flatMap fun u => visitLines args e.now u (s.keymeta u)
    | _ => ∀ line ∈ (handle args s e).log, line.ofEdge = true := by
  cases heff : effectOf args e with
  | snapshot mods keys => exact (log_of_snapshot heff s).trans (log_reconcile _ _ _ _)
  | scan =>
    dsimp only
    rw [handle_of_tick (tick_of_scan heff)]
    exact log_watchdogTick _ _ _
  | none | mark | edge =>
    dsimp only
    unfold effectOf at heff
    unfold handle
    split at heff
    · rw [handleDatagram]
      split <;> simp_all [LogLine.ofEdge]
    · rw [snapshotCallback, parseSnapshot]
      split at heff <;> simp_all
    · rw [quicEdgeCallback]
      split <;> simp_all [LogLine.ofEdge]
    · cases heff

end Lines

/-! ## Credit -/

/-- The marker is set. -/
def KeyMeta.markerLeft (km : KeyMeta) : ℕ := if km.upMarkerNs.isSome then 1 else 0

/-- There was an edge, and the key was not reported since. -/
def KeyMeta.reportLeft (km : KeyMeta) : ℕ :=
  if km.lastEdgeNs ≠ 0 ∧ km.stuckReported = false then 1 else 0

/-- `u` is pressed. -/
def placeLeft (u : UInt8) (s : KeyState) : ℕ := if u ∈ s.pressed then 1 else 0

/-- `u` appears in the pressed set. -/
def appears (args : Args) (u : UInt8) (s : KeyState) (e : Event) : ℕ :=
  if u ∉ s.pressed ∧ u ∈ (step args s e).pressed then 1 else 0

section Credit

variable {args : Args} {s : KeyState} {e : Event} {u : UInt8}

lemma not_about_of_ofEdge {line : LogLine} (h : line.ofEdge = true) :
    line.heals u = false ∧ line.reportsStuck u = false ∧ line.releases u = false := by
  cases line with
  | heal | stuck | watchdog => cases h
  | drop | dropQuicEdge | lat | latQuicEdge => exact ⟨rfl, rfl, rfl⟩

lemma countP_of_ofEdge {log : List LogLine} (h : ∀ line ∈ log, line.ofEdge = true) :
    log.countP (LogLine.heals u) = 0 ∧ log.countP (LogLine.reportsStuck u) = 0
      ∧ log.countP (LogLine.releases u) = 0 := by
  simp only [List.countP_eq_zero, ← Bool.eq_false_iff]
  exact ⟨fun line hl => (not_about_of_ofEdge (h line hl)).1,
    fun line hl => (not_about_of_ofEdge (h line hl)).2.1,
    fun line hl => (not_about_of_ofEdge (h line hl)).2.2⟩

/-- The line of a key that a snapshot misses uses the marker up. -/
lemma countP_healLine (now : UInt64) (keys : UnorderedSet UInt8) (km : KeyMeta) :
    (healLine now keys u km).countP (LogLine.heals u) = if u ∈ keys then 0 else km.markerLeft := by
  rw [healLine, KeyMeta.markerLeft]
  split
  · rfl
  · cases km.upMarkerNs <;> simp [LogLine.heals]

/-- The lines of a snapshot about `u`. -/
lemma countP_healLines (now : UInt64) (keys : UnorderedSet UInt8) (s : KeyState) :
    (s.pressed.toList.flatMap fun v => healLine now keys v (s.keymeta v)).countP (LogLine.heals u)
      = if u ∈ s.pressed then if u ∈ keys then 0 else (s.keymeta u).markerLeft else 0 := by
  rw [Sweep.countP_flatMap s.pressed.nodup (k := u), countP_healLine]
  · rfl
  · intro v hv line hline
    rcases mem_healLine.mp hline with ⟨-, t, -, rfl⟩
    exact beq_false_of_ne hv

/-- A snapshot has `[heal]` lines only. -/
lemma countP_healLines_of_ne (now : UInt64) (keys : UnorderedSet UInt8) (s : KeyState) :
    let log := s.pressed.toList.flatMap fun v => healLine now keys v (s.keymeta v)
    log.countP (LogLine.reportsStuck u) = 0 ∧ log.countP (LogLine.releases u) = 0 := by
  have hline : ∀ line ∈ s.pressed.toList.flatMap fun v => healLine now keys v (s.keymeta v),
      ∃ v healMs, line = .heal v healMs := by
    intro line hline
    rcases List.mem_flatMap.mp hline with ⟨v, -, hv⟩
    rcases mem_healLine.mp hv with ⟨-, t, -, heq⟩
    exact ⟨_, _, heq⟩
  simp only [List.countP_eq_zero]
  constructor
  · intro line hl
    rcases hline line hl with ⟨v, healMs, rfl⟩
    exact Bool.false_ne_true
  · intro line hl
    rcases hline line hl with ⟨v, healMs, rfl⟩
    exact Bool.false_ne_true

/-- The lines of a visit. -/
lemma countP_visitLines (now : UInt64) (km : KeyMeta) :
    (visitLines args now u km).countP (LogLine.heals u) = 0
      ∧ (visitLines args now u km).countP (LogLine.reportsStuck u)
        = (if stuckDue args now km then 1 else 0)
      ∧ (visitLines args now u km).countP (LogLine.releases u)
        = if expired args now km then 1 else 0 := by
  rw [visitLines]
  by_cases hs : stuckDue args now km = true <;> by_cases he : expired args now km = true <;>
    simp [hs, he, LogLine.heals, LogLine.reportsStuck, LogLine.releases]

/-- A visit of another key has no lines about `u`. -/
lemma not_about_of_visitLines {now : UInt64} {km : KeyMeta} {v : UInt8} (hv : v ≠ u)
    {line : LogLine} (hline : line ∈ visitLines args now v km) :
    line.heals u = false ∧ line.reportsStuck u = false ∧ line.releases u = false := by
  rcases mem_visitLines.mp hline with ⟨-, rfl⟩ | ⟨-, rfl⟩
  · exact ⟨rfl, beq_false_of_ne hv, rfl⟩
  · exact ⟨rfl, rfl, beq_false_of_ne hv⟩

/-- The lines of a round about `u`. -/
lemma countP_roundLines (now : UInt64) (s : KeyState) :
    let log := s.pressed.toList.flatMap fun v => visitLines args now v (s.keymeta v)
    log.countP (LogLine.heals u) = 0
      ∧ log.countP (LogLine.reportsStuck u)
        = (if u ∈ s.pressed then if stuckDue args now (s.keymeta u) then 1 else 0 else 0)
      ∧ log.countP (LogLine.releases u)
        = if u ∈ s.pressed then if expired args now (s.keymeta u) then 1 else 0 else 0 := by
  have hcount := @countP_visitLines args u now (s.keymeta u)
  refine ⟨?_, ?_, ?_⟩
  · rw [Sweep.countP_flatMap s.pressed.nodup fun v hv line hl => (not_about_of_visitLines hv hl).1,
      hcount.1, ite_self]
  · rw [Sweep.countP_flatMap s.pressed.nodup
      fun v hv line hl => (not_about_of_visitLines hv hl).2.1, hcount.2.1]
    rfl
  · rw [Sweep.countP_flatMap s.pressed.nodup
      fun v hv line hl => (not_about_of_visitLines hv hl).2.2, hcount.2.2]
    rfl

/-- **A `[heal]` line uses the marker up.** -/
lemma heals_step (args : Args) (u : UInt8) (s : KeyState) (e : Event) :
    (handle args s e).log.countP (LogLine.heals u) + ((step args s e).keymeta u).markerLeft
      ≤ (if marksKey args u e then 1 else 0) + (s.keymeta u).markerLeft := by
  have hlog := log_handle args s e
  rw [keymeta_step, marksKey]
  cases heff : effectOf args e with
  | none =>
    rw [heff] at hlog
    rw [(countP_of_ofEdge hlog).1]
    exact Nat.le_refl _
  | mark usage tNs =>
    rw [heff] at hlog
    rw [(countP_of_ofEdge hlog).1, Effect.entry]
    by_cases hu : u = usage
    · simp [hu, KeyMeta.markerLeft]
    · simp [hu]
  | edge mods down usage =>
    rw [heff] at hlog
    rw [(countP_of_ofEdge hlog).1, Effect.entry]
    split
    · cases down <;> simp [edgeMeta, KeyMeta.markerLeft]
    · simp
  | snapshot mods keys =>
    rw [heff] at hlog
    rw [hlog, countP_healLines, Effect.entry]
    by_cases hk : u ∈ keys <;> by_cases hp : u ∈ s.pressed <;>
      simp [hk, hp, KeyMeta.markerLeft]
  | scan =>
    rw [heff] at hlog
    rw [hlog, (countP_roundLines e.now s).1, Effect.entry]
    split
    · rw [visitMeta]
      split <;> simp [KeyMeta.markerLeft]
    · simp

/-- **A `[stuck]` line uses the edge up.** -/
lemma stuck_step (args : Args) (u : UInt8) (s : KeyState) (e : Event) :
    (handle args s e).log.countP (LogLine.reportsStuck u)
        + ((step args s e).keymeta u).reportLeft
      ≤ (if edgesKey args u e then 1 else 0) + (s.keymeta u).reportLeft := by
  have hlog := log_handle args s e
  rw [keymeta_step, edgesKey]
  cases heff : effectOf args e with
  | none =>
    rw [heff] at hlog
    rw [(countP_of_ofEdge hlog).2.1]
    exact Nat.le_refl _
  | mark usage tNs =>
    rw [heff] at hlog
    rw [(countP_of_ofEdge hlog).2.1, Effect.entry]
    split <;> simp [KeyMeta.reportLeft]
  | edge mods down usage =>
    rw [heff] at hlog
    rw [(countP_of_ofEdge hlog).2.1, Effect.entry]
    by_cases hu : u = usage
    · simp [hu, edgeMeta, KeyMeta.reportLeft]
      split <;> omega
    · simp [hu]
  | snapshot mods keys =>
    rw [heff] at hlog
    rw [hlog, (countP_healLines_of_ne e.now keys s).1, Effect.entry]
    split
    · simp [KeyMeta.reportLeft]
    · split <;> simp [KeyMeta.reportLeft]
  | scan =>
    rw [heff] at hlog
    rw [hlog, (countP_roundLines e.now s).2.1, Effect.entry]
    by_cases hp : u ∈ s.pressed
    · rw [if_pos hp, if_pos hp]
      have hvisit : (visitMeta args e.now (s.keymeta u)).reportLeft
          = if (s.keymeta u).lastEdgeNs ≠ 0 ∧ ((s.keymeta u).stuckReported = false
            ∧ stuckDue args e.now (s.keymeta u) = false) then 1 else 0 := by
        rw [visitMeta]
        split <;> simp [KeyMeta.reportLeft]
      rw [hvisit]
      by_cases hdue : stuckDue args e.now (s.keymeta u) = true
      · -- what is due has an edge to report, and none left behind the line
        have hleft : (s.keymeta u).reportLeft = 1 := by
          simp only [stuckDue, Bool.and_eq_true, bne_iff_ne, Bool.not_eq_true'] at hdue
          exact if_pos ⟨hdue.1.1.2, hdue.1.2⟩
        simp [hdue, hleft]
      · simp [hdue, KeyMeta.reportLeft]
    · rw [if_neg hp, if_neg hp]
      exact Nat.le_refl _

/-- **A `[watchdog]` line takes its key out of the pressed set.** -/
lemma releases_step (args : Args) (u : UInt8) (s : KeyState) (e : Event) :
    (handle args s e).log.countP (LogLine.releases u) + placeLeft u (step args s e)
      ≤ appears args u s e + placeLeft u s := by
  have hlog := log_handle args s e
  have happears : placeLeft u (step args s e) ≤ appears args u s e + placeLeft u s := by
    rw [placeLeft, placeLeft, appears]
    by_cases hp : u ∈ s.pressed <;> by_cases hp' : u ∈ (step args s e).pressed <;> simp [hp, hp']
  cases heff : effectOf args e with
  | none | mark | edge =>
    rw [heff] at hlog
    rwa [(countP_of_ofEdge hlog).2.2, Nat.zero_add]
  | snapshot mods keys =>
    rw [heff] at hlog
    rwa [hlog, (countP_healLines_of_ne e.now keys s).2, Nat.zero_add]
  | scan =>
    rw [heff] at hlog
    have hmem : u ∈ (step args s e).pressed ↔ _ := mem_pressed_of_tick (tick_of_scan heff)
    rw [hlog, (countP_roundLines e.now s).2.2]
    by_cases hp : u ∈ s.pressed <;> by_cases hx : expired args e.now (s.keymeta u) = true <;>
      simp [placeLeft, hmem, hp, hx]

end Credit

/-! ## Runs -/

section Runs

variable {args : Args}

lemma countP_logOf (args : Args) (p : LogLine → Bool) (s : KeyState) (es : List Event) :
    (logOf args s es).countP p
      = total (step args) (fun s e => (handle args s e).log.countP p) s es := by
  induction es generalizing s with
  | nil => rfl
  | cons e es ih => rw [logOf, List.countP_append, ih, total]

lemma total_countP (args : Args) (p : Event → Bool) (s : KeyState) (es : List Event) :
    total (step args) (fun _ e => if p e then 1 else 0) s es = es.countP p := by
  induction es generalizing s with
  | nil => rfl
  | cons e es ih =>
    rw [total, ih, List.countP_cons, Nat.add_comm]

lemma total_appears (args : Args) (u : UInt8) (s : KeyState) (es : List Event) :
    total (step args) (appears args u) s es = appearances args u s es := by
  induction es generalizing s with
  | nil => rfl
  | cons e es ih => rw [total, ih, appearances, appears]

/-- **`[heal]` lines are paid for by markers.** -/
lemma heals_le (args : Args) (u : UInt8) (s : KeyState) (es : List Event) :
    (logOf args s es).countP (LogLine.heals u)
        + ((es.foldl (step args) s).keymeta u).markerLeft
      ≤ es.countP (marksKey args u) + (s.keymeta u).markerLeft := by
  rw [countP_logOf, ← total_countP args (marksKey args u) s es]
  exact total_le (fun s => (s.keymeta u).markerLeft) (heals_step args u) s es

/-- **Every line about a key is paid for.** From any state on, the `[heal]` lines about `u` and
the marker that is left are no more than the markers for `u` and the one that was there; the
`[stuck]` lines no more than the edges for `u`, and the `[watchdog]` lines no more than its
appearances in the pressed set, each with what is left and what was there. -/
theorem lines_le (args : Args) (u : UInt8) (s : KeyState) (es : List Event) :
    let log := logOf args s es
    let s' := es.foldl (step args) s
    log.countP (LogLine.heals u) + (s'.keymeta u).markerLeft
        ≤ es.countP (marksKey args u) + (s.keymeta u).markerLeft
      ∧ log.countP (LogLine.reportsStuck u) + (s'.keymeta u).reportLeft
        ≤ es.countP (edgesKey args u) + (s.keymeta u).reportLeft
      ∧ log.countP (LogLine.releases u) + placeLeft u s'
        ≤ appearances args u s es + placeLeft u s := by
  refine ⟨heals_le args u s es, ?_, ?_⟩
  · rw [countP_logOf, ← total_countP args (edgesKey args u) s es]
    exact total_le (fun s => (s.keymeta u).reportLeft) (stuck_step args u) s es
  · rw [countP_logOf, ← total_appears args u s es]
    exact total_le (placeLeft u) (releases_step args u) s es

end Runs

end QuicKeys.Daemon
