import QuicKeys.Daemon.WatchdogTiming

/-!
# What one round of the monitor thread leaves behind

The scan erases from the set it iterates over and makes two independent checks per key. What
it leaves is stated here without a loop (`afterTick`): which keys are released and which are
reported is read off the state before the scan, in exact nanoseconds. A second round at the
same reading of the clock finds nothing left to do.
-/

namespace QuicKeys.Daemon

/-- No edge and no snapshot was stamped later than `now`. -/
structure StampsBefore (now : UInt64) (s : KeyState) : Prop where
  edge : ∀ u, (s.keymeta u).lastEdgeNs ≤ now
  snapshot : ∀ u, (s.keymeta u).lastSnapshotNs ≤ now

/-- The key is pressed, and its last snapshot is more than `watchdog_ms` old. -/
def Stale (args : Args) (now : UInt64) (s : KeyState) (u : UInt8) : Prop :=
  u ∈ s.pressed ∧ 0 < args.watchdogMs ∧ (s.keymeta u).lastSnapshotNs ≠ 0
    ∧ watchdogNs args < now.toNat - (s.keymeta u).lastSnapshotNs.toNat

/-- The key is pressed, and its last edge is more than `stuck_ms` old. -/
def Overdue (args : Args) (now : UInt64) (s : KeyState) (u : UInt8) : Prop :=
  u ∈ s.pressed ∧ 0 < args.stuckMs ∧ (s.keymeta u).lastEdgeNs ≠ 0
    ∧ stuckNs args < now.toNat - (s.keymeta u).lastEdgeNs.toNat

instance (args : Args) (now : UInt64) (s : KeyState) : DecidablePred (Stale args now s) :=
  fun _ => inferInstanceAs (Decidable (_ ∧ _))

instance (args : Args) (now : UInt64) (s : KeyState) : DecidablePred (Overdue args now s) :=
  fun _ => inferInstanceAs (Decidable (_ ∧ _))

/-- The key state after a round: the stale keys are released, the overdue ones are reported,
and everything else is as it was. -/
def afterTick (args : Args) (now : UInt64) (s : KeyState) : KeyState where
  pressed :=
    { toList := s.pressed.toList.filter fun u => decide ¬Stale args now s u
      nodup := s.pressed.nodup.filter _ }
  modifiers := s.modifiers
  keymeta u :=
    { s.keymeta u with
      pressed := if Stale args now s u then false else (s.keymeta u).pressed
      upMarkerNs := if Stale args now s u then none else (s.keymeta u).upMarkerNs
      stuckReported := (s.keymeta u).stuckReported || decide (Overdue args now s u) }

section Entries

variable {args : Args} {now : UInt64} {s : KeyState} {u : UInt8}

lemma expired_iff_stale (h : StampsBefore now s) (hu : u ∈ s.pressed) :
    expired args now (s.keymeta u) = true ↔ Stale args now s u := by
  rw [expired_iff_of_le (UInt64.le_iff_toNat_le.mp (h.snapshot u)), Stale, and_iff_right hu,
    watchdogNs]

/-- The flag is raised by the first round that finds the key overdue, and stays. -/
lemma stuckReported_or_stuckDue (h : StampsBefore now s) (hu : u ∈ s.pressed) :
    ((s.keymeta u).stuckReported || stuckDue args now (s.keymeta u))
      = ((s.keymeta u).stuckReported || decide (Overdue args now s u)) := by
  rw [Bool.eq_iff_iff, Bool.or_eq_true, Bool.or_eq_true, decide_eq_true_eq,
    stuckDue_iff_of_le (UInt64.le_iff_toNat_le.mp (h.edge u)), Overdue, and_iff_right hu]
  by_cases hrep : (s.keymeta u).stuckReported = true
  · exact iff_of_true (Or.inl hrep) (Or.inl hrep)
  · rw [or_iff_right hrep, or_iff_right hrep, and_iff_right (Bool.eq_false_iff.mpr hrep)]

end Entries

section Round

variable {args : Args} {now : UInt64} {s : KeyState}

/-- **The scan refines `afterTick`**, iteration order included. -/
lemma watchdogTick_state (h : StampsBefore now s) :
    (watchdogTick args now s).state = afterTick args now s := by
  apply KeyState.ext
  · apply UnorderedSet.ext
    have hsub : (watchdogTick args now s).state.pressed.toList.Sublist s.pressed.toList :=
      foldl_visit_pressed_sublist _
    apply UnorderedSet.toList_eq_filter hsub
    intro v
    rw [mem_watchdogTick_pressed, decide_eq_true_eq]
    refine and_congr_right fun hv => ?_
    rw [← expired_iff_stale h hv, Bool.not_eq_true]
  · rw [watchdogTick_modifiers]
    rfl
  · ext1 u
    rw [watchdogTick_keymeta]
    by_cases hu : u ∈ s.pressed
    · rw [if_pos hu, visitMeta, stuckReported_or_stuckDue h hu]
      by_cases hstale : Stale args now s u
      · rw [if_pos ((expired_iff_stale h hu).mpr hstale)]
        simp [afterTick, hstale]
      · rw [if_neg (mt (expired_iff_stale h hu).mp hstale)]
        simp [afterTick, hstale]
    -- a key that is not pressed is neither stale nor overdue
    · have hstale : ¬Stale args now s u := fun hx => hu hx.1
      have hover : ¬Overdue args now s u := fun hx => hu hx.1
      rw [if_neg hu]
      simp [afterTick, hstale, hover]

/-- A round sends a report iff some key is stale. -/
lemma watchdogTick_emit_iff (h : StampsBefore now s) :
    (watchdogTick args now s).emit = true ↔ ∃ u, Stale args now s u := by
  rw [watchdogTick_emit]
  refine exists_congr fun u => ?_
  constructor
  · intro hu
    exact (expired_iff_stale h hu.1).mp hu.2
  · intro hu
    exact ⟨hu.1, (expired_iff_stale h hu.1).mpr hu⟩

lemma StampsBefore.afterTick (h : StampsBefore now s) : StampsBefore now (afterTick args now s) :=
  ⟨h.edge, h.snapshot⟩

/-- After a round, no key is stale. -/
lemma not_stale_afterTick (u : UInt8) : ¬Stale args now (afterTick args now s) u := by
  intro hstale
  rcases hstale with ⟨hu, hrest⟩
  rcases List.mem_filter.mp hu with ⟨hmem, hnot⟩
  exact of_decide_eq_true hnot ⟨hmem, hrest⟩

/-- A second round at the same time changes nothing. -/
lemma afterTick_afterTick :
    QuicKeys.Daemon.afterTick args now (afterTick args now s) = afterTick args now s := by
  have hkeep (u : UInt8) (b : Bool) :
      (b || decide (Overdue args now s u)
          || decide (Overdue args now (afterTick args now s) u))
        = (b || decide (Overdue args now s u)) := by
    -- a key that is still pressed and overdue was reported by the first round
    rw [Bool.or_eq_left_iff_imp, decide_eq_true_eq, Bool.or_eq_true, decide_eq_true_eq]
    intro hx
    exact Or.inr ⟨(List.mem_filter.mp hx.1).1, hx.2⟩
  apply KeyState.ext
  · apply UnorderedSet.ext
    apply List.filter_eq_self.mpr
    intro v _
    exact decide_eq_true (not_stale_afterTick v)
  · rfl
  · ext1 u
    have hstale : ¬Stale args now (afterTick args now s) u := not_stale_afterTick u
    rw [QuicKeys.Daemon.afterTick]
    dsimp only
    rw [if_neg hstale, if_neg hstale]
    exact congrArg _ (hkeep u _)

end Round

/-! ## A round as a step -/

section Tick

variable {args : Args} {s : KeyState} {e : Event}

lemma step_of_tick (htick : e.msg = .tick) (h : StampsBefore e.now s) :
    step args s e = afterTick args e.now s := by
  rw [step, handle_of_tick htick, watchdogTick_state h]

lemma emitted_of_stale (htick : e.msg = .tick) (h : StampsBefore e.now s)
    (hsome : ∃ u, Stale args e.now s u) :
    emitted args s e = some (reportOf (afterTick args e.now s)) := by
  rw [emitted, handle_of_tick htick, if_pos ((watchdogTick_emit_iff h).mpr hsome),
    step_of_tick htick h]

lemma emitted_of_not_stale (htick : e.msg = .tick) (h : StampsBefore e.now s)
    (hnone : ¬∃ u, Stale args e.now s u) : emitted args s e = none := by
  rw [emitted, handle_of_tick htick, if_neg (mt (watchdogTick_emit_iff h).mp hnone)]

end Tick

/-- **The effect of one round.** If no stamp lies ahead of its clock reading, a round leaves
the state `afterTick` and sends one report of it iff a key was stale; a second round at the
same reading changes nothing and sends nothing. -/
theorem tick_effect {args : Args} {s : KeyState} {e : Event} (htick : e.msg = .tick)
    (hstamps : StampsBefore e.now s) :
    step args s e = afterTick args e.now s
      ∧ ((∃ u, Stale args e.now s u) → emitted args s e = some (reportOf (afterTick args e.now s)))
      ∧ ((¬∃ u, Stale args e.now s u) → emitted args s e = none)
      ∧ ∀ e', e'.msg = .tick → e'.now = e.now →
        step args (step args s e) e' = step args s e ∧ emitted args (step args s e) e' = none := by
  refine ⟨step_of_tick htick hstamps, emitted_of_stale htick hstamps,
    emitted_of_not_stale htick hstamps, ?_⟩
  intro e' htick' hnow
  rw [step_of_tick htick hstamps, ← hnow]
  rw [← hnow] at hstamps
  have hstamps' : StampsBefore e'.now (afterTick args e'.now s) := hstamps.afterTick
  refine ⟨?_, emitted_of_not_stale htick' hstamps' ?_⟩
  · rw [step_of_tick htick' hstamps', afterTick_afterTick]
  · rintro ⟨u, hstale⟩
    exact not_stale_afterTick u hstale

/-- Two keys are pressed, one of them was in no snapshot for a second. -/
def staleA : KeyState where
  pressed := UnorderedSet.insert (IterOrder.front UInt8) 5
    (UnorderedSet.insert (IterOrder.front UInt8) 4 ∅)
  keymeta u :=
    if u = 4 then { pressed := true, lastEdgeNs := 1, lastSnapshotNs := 1, upMarkerNs := some 1 }
    else if u = 5 then { pressed := true, lastEdgeNs := 1, lastSnapshotNs := 1000000000 }
    else {}

/-- That one is released, and the report shows the other one. -/
theorem tick_effect_staleA :
    (emitted {} staleA (tickAt 1000000001)).map (fun r => r.bytes.toList)
      = some [0, 0, 5, 0, 0, 0, 0, 0] := by
  have hstamps : StampsBefore (tickAt 1000000001).now staleA := by
    constructor
    · intro u
      simp only [staleA]
      split
      · decide
      · split <;> decide
    · intro u
      simp only [staleA]
      split
      · decide
      · split <;> decide
  rw [(tick_effect rfl hstamps).2.1 ⟨4, by decide⟩]
  decide

end QuicKeys.Daemon
