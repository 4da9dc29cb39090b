import QuicKeys.Daemon.Handlers

/-!
# The representation invariant of the key state

That a key is held is stored twice, as membership in `pressed` and as a flag in `keymeta`,
and the time stamps of a key tell how it came to be held. Four writers change both: edges
from datagrams and from binary records, snapshots, and the watchdog.
-/

namespace QuicKeys.Daemon

open Runs

/-- The representation invariant: flags and set agree, a held key was seen in an edge or in
a snapshot, and a key reported as stuck was seen in an edge. -/
structure WellFormed (s : KeyState) : Prop where
  flags : ∀ u, (s.keymeta u).pressed = true ↔ u ∈ s.pressed
  stamped : ∀ u ∈ s.pressed, (s.keymeta u).lastEdgeNs ≠ 0 ∨ (s.keymeta u).lastSnapshotNs ≠ 0
  reported : ∀ u, (s.keymeta u).stuckReported = true → (s.keymeta u).lastEdgeNs ≠ 0

/-- What it says about the time stamps of one entry. -/
structure StampsTell (isHeld : Bool) (km : KeyMeta) : Prop where
  held : isHeld = true → km.lastEdgeNs ≠ 0 ∨ km.lastSnapshotNs ≠ 0
  reported : km.stuckReported = true → km.lastEdgeNs ≠ 0

lemma stampsTell_init : StampsTell false {} where
  held h := by cases h
  reported h := by cases h

section Steps

variable {args : Args} {s : KeyState} {e : Event} {u : UInt8}

/-- An edge leaves its own clock reading behind. -/
lemma stampsTell_edgeMeta (hnow : e.now ≠ 0) (down isHeld : Bool) (km : KeyMeta) :
    StampsTell isHeld (edgeMeta e.now down km) where
  held _ := Or.inl hnow
  reported h := by cases h

/-- A visit of the monitor reports only keys that an edge has stamped. -/
lemma stampsTell_visitMeta {isHeld : Bool} {km : KeyMeta} (h : StampsTell isHeld km)
    (now : UInt64) {isHeld' : Bool} (hheld : isHeld' = true → isHeld = true) :
    StampsTell isHeld' (visitMeta args now km) := by
  have hstuck : (km.stuckReported || stuckDue args now km) = true → km.lastEdgeNs ≠ 0 := by
    intro hor
    rcases Bool.or_eq_true_iff.mp hor with hold | hnew
    · exact h.reported hold
    · simp only [stuckDue, Bool.and_eq_true, bne_iff_ne] at hnew
      exact hnew.1.1.2
  rw [visitMeta]
  split
  · exact ⟨fun hu => h.held (hheld hu), hstuck⟩
  · exact ⟨fun hu => h.held (hheld hu), hstuck⟩

/-- **Step lemma.** Every handler keeps the stamps telling, whatever the order of its clock
readings. -/
lemma stampsTell_step (h : StampsTell (held s u) (s.keymeta u)) (hnow : e.now ≠ 0) :
    StampsTell (held (step args s e) u) ((step args s e).keymeta u) := by
  rw [keymeta_step, held_step, Registers.Write.apply, writeOf]
  cases effectOf args e with
  | none => exact h
  | mark usage tNs =>
    simp only [Effect.entry, Effect.write, Option.getD_none]
    split
    · exact ⟨h.held, h.reported⟩
    · exact h
  | edge mods down usage =>
    simp only [Effect.entry, Effect.write]
    split
    · exact stampsTell_edgeMeta hnow _ _ _
    · exact h
  | snapshot mods keys =>
    simp only [Effect.entry, Effect.write, Option.getD_some]
    by_cases hk : u ∈ keys
    · rw [if_pos hk]
      exact ⟨fun _ => Or.inr hnow, h.reported⟩
    -- a key that is not in the snapshot is not held any more
    · have hnone : decide (u ∈ keys) = true → held s u = true := fun hu =>
        absurd (of_decide_eq_true hu) hk
      rw [if_neg hk]
      split
      · exact ⟨fun hu => h.held (hnone hu), h.reported⟩
      · exact ⟨fun hu => h.held (hnone hu), h.reported⟩
  | scan =>
    simp only [Effect.entry, Effect.write]
    by_cases hu : u ∈ s.pressed
    · rw [if_pos hu]
      apply stampsTell_visitMeta h e.now
      split
      · exact fun hfalse => absurd hfalse Bool.false_ne_true
      · exact id
    · rw [if_neg hu, if_neg fun hx => hu hx.1]
      exact h

end Steps

/-- **Run lemma.** -/
lemma stampsTell_run {args : Args} {es : List Event} (hnow : ∀ e ∈ es, 0 < e.now) (u : UInt8) :
    StampsTell (held (run args es) u) ((run args es).keymeta u) := by
  have hinit : StampsTell (held {} u) (({} : KeyState).keymeta u) := stampsTell_init
  refine Along.invariant (C := fun _ e => 0 < e.now)
    (I := fun s => StampsTell (held s u) (s.keymeta u)) (fun s e h he => ?_) hinit
    (along_iff_forall_mem.mpr hnow)
  exact stampsTell_step h (UInt64.pos_iff_ne_zero.mp he)

/-- **Every reachable key state is well-formed**, after any sequence of handlers with clock
readings above 0. -/
theorem wellFormed_run {args : Args} {es : List Event} (hnow : ∀ e ∈ es, 0 < e.now) :
    WellFormed (run args es) where
  flags u := by
    rw [consistent_run args es u, held, decide_eq_true_eq]
  stamped u hu := (stampsTell_run hnow u).held (decide_eq_true hu)
  reported u := (stampsTell_run hnow u).reported

/-- A press, a snapshot of the key and a round, in an order of their readings that the clock
would not give. -/
theorem wellFormed_run_pressThenSnapshot :
    WellFormed (run {} [edgeA true 0 7, snapshotA 5, tickAt 1000000000]) :=
  wellFormed_run (by decide)

end QuicKeys.Daemon
