import QuicKeys.Daemon.Resync
import QuicKeys.Daemon.WatchdogTiming

/-!
# Two daemons with different pasts

Two daemons that process the same messages from some snapshot on hold the same keys from
then on, whatever they had processed before: a snapshot replaces all that later reports
depend on. The one thing it leaves alone is the stamps of the keys it does not contain, so
with the watchdog on a key may only be pressed once a snapshot since has contained it.
-/

namespace QuicKeys.Daemon

/-- Some event of `es` is a snapshot that contains `u`. -/
def ReaffirmedIn (args : Args) (es : List Event) (u : UInt8) : Prop :=
  ∃ d ∈ es, Reaffirms args d u

/-- With the watchdog on, every press of `es` is of a key that `snap` or a snapshot before
the press contains. -/
def PressesReaffirmed (args : Args) (snap : Event) (es : List Event) : Prop :=
  0 < args.watchdogMs → ∀ pre e post, es = pre ++ e :: post →
    ∀ u, Presses args e u → ReaffirmedIn args (snap :: pre) u

/-- Two reports show the same modifiers and the same keys. -/
def ShowsSame (r r' : HidReport8) : Prop :=
  r.bytes.toList.head? = r'.bytes.toList.head? ∧ r.keys = r'.keys

/-! ## What the two have in common -/

/-- The keys and modifiers of two daemons, and the stamps of the keys that snapshots of
`seen` contain. With the watchdog on, all pressed keys are among those. -/
structure InLine (args : Args) (seen : List Event) (s s' : KeyState) : Prop where
  pressed : ∀ u, u ∈ s.pressed ↔ u ∈ s'.pressed
  modifiers : s.modifiers = s'.modifiers
  stamps : ∀ u, ReaffirmedIn args seen u →
    (s.keymeta u).lastSnapshotNs = (s'.keymeta u).lastSnapshotNs
  covered : 0 < args.watchdogMs → ∀ u ∈ s.pressed, ReaffirmedIn args seen u

section Steps

variable {args : Args} {seen : List Event} {s s' : KeyState} {e : Event} {u : UInt8}

lemma ReaffirmedIn.concat (h : ReaffirmedIn args seen u) (e : Event) :
    ReaffirmedIn args (seen ++ [e]) u := by
  rcases h with ⟨d, hd, hu⟩
  exact ⟨d, List.mem_append_left _ hd, hu⟩

lemma reaffirmedIn_concat :
    ReaffirmedIn args (seen ++ [e]) u ↔ ReaffirmedIn args seen u ∨ Reaffirms args e u := by
  simp [ReaffirmedIn, or_and_right, exists_or]

/-- The watchdog decides alike on the pressed keys. -/
lemma InLine.expired_eq (h : InLine args seen s s') (now : UInt64) (hu : u ∈ s.pressed) :
    expired args now (s.keymeta u) = expired args now (s'.keymeta u) := by
  by_cases hwd : 0 < args.watchdogMs
  · rw [expired, expired, h.stamps u (h.covered hwd u hu)]
  · simp only [expired, decide_eq_false hwd, Bool.false_and]

/-- The two handlers write alike. -/
lemma InLine.mem_step_iff (h : InLine args seen s s') (e : Event) (u : UInt8) :
    u ∈ (step args s e).pressed ↔ u ∈ (step args s' e).pressed := by
  have hheld : held s u = held s' u := decide_eq_decide.mpr (h.pressed u)
  rw [mem_pressed_step, mem_pressed_step, hheld, writeOf, writeOf]
  cases effectOf args e with
  | none => exact Iff.rfl
  | mark usage tNs => exact Iff.rfl
  | edge mods down usage => exact Iff.rfl
  | snapshot mods keys => exact Iff.rfl
  | scan =>
    simp only [Effect.write, ← h.pressed u]
    by_cases hu : u ∈ s.pressed
    · rw [h.expired_eq e.now hu]
    · simp [hu]

/-- A key that a handler leaves pressed was pressed before, is pressed by an edge, or is in a
snapshot. -/
lemma mem_or_affirms_of_mem_step (h : u ∈ (step args s e).pressed) :
    u ∈ s.pressed ∨ Presses args e u ∨ Reaffirms args e u := by
  rw [mem_pressed_step, writeOf] at h
  cases heff : effectOf args e with
  | none =>
    rw [heff] at h
    exact Or.inl (of_decide_eq_true h)
  | mark usage tNs =>
    rw [heff] at h
    exact Or.inl (of_decide_eq_true h)
  | edge mods down usage =>
    rw [heff, Effect.write] at h
    dsimp only at h
    by_cases hu : u = usage
    · rw [if_pos hu] at h
      obtain rfl : down = true := h
      exact Or.inr (Or.inl ⟨mods, by rw [heff, hu]⟩)
    · rw [if_neg hu] at h
      exact Or.inl (of_decide_eq_true h)
  | snapshot mods keys =>
    rw [heff] at h
    exact Or.inr (Or.inr ⟨mods, keys, heff, of_decide_eq_true h⟩)
  | scan =>
    rw [heff, Effect.write] at h
    dsimp only at h
    split at h
    · cases h
    · exact Or.inl (of_decide_eq_true h)

/-- **A snapshot brings two daemons in line**, from any states. -/
lemma inLine_snapshot {snap : Event} (hsnap : ∃ mods keys, effectOf args snap = .snapshot mods keys)
    (s s' : KeyState) : InLine args [snap] (step args s snap) (step args s' snap) := by
  rcases hsnap with ⟨mods, keys, heff⟩
  refine ⟨fun u => ?_, ?_, fun u hu => ?_, fun _ u hu => ⟨snap, List.mem_singleton_self _, ?_⟩⟩
  · rw [step_eq, step_eq, heff]
    exact Iff.rfl
  · rw [step_eq, step_eq, heff]
    rfl
  · rcases hu with ⟨d, hd, hu⟩
    rw [List.mem_singleton.mp hd] at hu
    rw [lastSnapshotNs_of_reaffirms hu, lastSnapshotNs_of_reaffirms hu]
  · rw [step_eq, heff] at hu
    exact ⟨mods, keys, heff, hu⟩

/-- **Step lemma.** -/
lemma inLine_step (h : InLine args seen s s')
    (hpress : 0 < args.watchdogMs → ∀ u, Presses args e u → ReaffirmedIn args seen u) :
    InLine args (seen ++ [e]) (step args s e) (step args s' e) where
  pressed := h.mem_step_iff e
  modifiers := by
    rw [modifiers_step, modifiers_step, h.modifiers]
  stamps u hu := by
    by_cases he : Reaffirms args e u
    · rw [lastSnapshotNs_of_reaffirms he, lastSnapshotNs_of_reaffirms he]
    · rw [lastSnapshotNs_of_not_reaffirms he, lastSnapshotNs_of_not_reaffirms he]
      exact h.stamps u ((reaffirmedIn_concat.mp hu).resolve_right he)
  covered hwd u hu := by
    rcases mem_or_affirms_of_mem_step hu with hold | hpresses | hreaffirms
    · exact (h.covered hwd u hold).concat e
    · exact (hpress hwd u hpresses).concat e
    · exact reaffirmedIn_concat.mpr (Or.inr hreaffirms)

/-- Both handlers send a report, or neither does. -/
lemma InLine.emit_eq (h : InLine args seen s s') (e : Event) :
    (handle args s e).emit = (handle args s' e).emit := by
  rw [Bool.eq_iff_iff, handle_emit, handle_emit]
  cases effectOf args e with
  | none => exact Iff.rfl
  | mark usage tNs => exact Iff.rfl
  | edge mods down usage => exact Iff.rfl
  | snapshot mods keys => exact Iff.rfl
  | scan =>
    refine exists_congr fun u => ?_
    rw [← h.pressed u]
    refine and_congr_right fun hu => ?_
    rw [h.expired_eq e.now hu]

/-- As long as they fit, the reports of the two show the same. -/
lemma InLine.showsSame (h : InLine args seen s s') (hfew : s.pressed.toList.length ≤ 6) :
    ShowsSame (reportOf s) (reportOf s') := by
  have hperm : s.pressed.toList.Perm s'.pressed.toList :=
    (List.perm_ext_iff_of_nodup s.pressed.nodup s'.pressed.nodup).mpr h.pressed
  refine ⟨congrArg some h.modifiers, Finset.ext fun u => ?_⟩
  rw [mem_keys_reportOf hfew, mem_keys_reportOf (hperm.length_eq ▸ hfew), h.pressed u]

end Steps

/-! ## Runs -/

section Runs

variable {args : Args} {snap : Event}

lemma run_append_snap (args : Args) (past : List Event) (snap : Event) (es : List Event) :
    run args (past ++ snap :: es) = es.foldl (step args) (step args (run args past) snap) := by
  rw [run, List.foldl_append]
  rfl

lemma PressesReaffirmed.of_concat {es : List Event} {e : Event}
    (h : PressesReaffirmed args snap (es ++ [e])) : PressesReaffirmed args snap es := by
  intro hwd pre d post hes
  exact h hwd pre d (post ++ [e]) (by rw [hes]; simp)

/-- **Run lemma.** -/
lemma inLine_run (hsnap : ∃ mods keys, effectOf args snap = .snapshot mods keys)
    (past past' : List Event) {es : List Event} (hpress : PressesReaffirmed args snap es) :
    InLine args (snap :: es) (run args (past ++ snap :: es)) (run args (past' ++ snap :: es)) := by
  rw [run_append_snap, run_append_snap]
  induction es using List.reverseRecOn with
  | nil => exact inLine_snapshot hsnap _ _
  | append_singleton es e ih =>
    rw [List.foldl_append, List.foldl_append]
    exact inLine_step (ih hpress.of_concat) fun hwd => hpress hwd es e [] rfl

/-- **The past does not matter.** Two daemons that process the same snapshot and the same
events after it hold the same keys and modifiers from then on and send reports after the same
events, whatever each had processed before; and as long as at most six keys are pressed,
these reports show the same. With the watchdog on, this takes that keys are only pressed once
a snapshot since has contained them. -/
theorem sameKeys_of_snapshot (hsnap : ∃ mods keys, effectOf args snap = .snapshot mods keys)
    (past past' : List Event) {es : List Event} (hpress : PressesReaffirmed args snap es) :
    let s := run args (past ++ [snap])
    let s' := run args (past' ++ [snap])
    SameKeys (es.foldl (step args) s) (es.foldl (step args) s')
      ∧ (reports args s es).length = (reports args s' es).length
      ∧ ((∀ pre, pre <+: es → (pre.foldl (step args) s).pressed.toList.length ≤ 6) →
        List.Forall₂ ShowsSame (reports args s es) (reports args s' es)) := by
  intro s s'
  have hinv {es : List Event} (hpress : PressesReaffirmed args snap es) :
      InLine args (snap :: es) (es.foldl (step args) s) (es.foldl (step args) s') := by
    have hs : s = step args (run args past) snap := run_append_snap args past snap []
    have hs' : s' = step args (run args past') snap := run_append_snap args past' snap []
    rw [hs, hs', ← run_append_snap, ← run_append_snap]
    exact inLine_run hsnap past past' hpress
  refine ⟨⟨fun u => ((hinv hpress).pressed u).symm, (hinv hpress).modifiers.symm⟩, ?_, ?_⟩
  · induction es using List.reverseRecOn with
    | nil => rfl
    | append_singleton es e ih =>
      rw [reports_concat, reports_concat, List.length_append, List.length_append,
        ih hpress.of_concat, emitted, emitted, (hinv hpress.of_concat).emit_eq e]
      split <;> rfl
  · induction es using List.reverseRecOn with
    | nil => exact fun _ => .nil
    | append_singleton es e ih =>
      intro hfew
      rw [reports_concat, reports_concat]
      refine List.rel_append (ih hpress.of_concat fun pre hpre =>
        hfew pre (hpre.trans (List.prefix_append _ _))) ?_
      rw [emitted, emitted, (hinv hpress.of_concat).emit_eq e]
      split
      · have hlast := hfew _ List.prefix_rfl
        have hinline := hinv hpress
        rw [List.foldl_append, List.foldl_cons, List.foldl_nil] at hlast
        rw [List.foldl_append, List.foldl_append] at hinline
        exact .cons (hinline.showsSame hlast) .nil
      · exact .nil

end Runs

/-- A release and a new press of `a`. -/
def pressAgain : List Event := [edgeA false 0 3, edgeA true 0 4]

/-- One daemon had `a` pressed before the snapshot of `a`, the other one is new. -/
theorem sameKeys_of_snapshot_pressAgain :
    SameKeys (pressAgain.foldl (step {}) (run {} [edgeA true 0 1, snapshotA 2]))
      (pressAgain.foldl (step {}) (run {} [snapshotA 2])) := by
  have hsnap : ∃ mods keys, effectOf {} (snapshotA 2) = .snapshot mods keys := ⟨_, _, rfl⟩
  refine (sameKeys_of_snapshot hsnap [edgeA true 0 1] [] ?_).1
  intro _ pre e post hes u hpresses
  have hmem : e ∈ pressAgain := by
    rw [hes]
    simp
  -- both edges are for `a`, which the snapshot contains
  obtain rfl : u = 4 := by
    rcases hpresses with ⟨mods, heff⟩
    rcases List.mem_pair.mp hmem with rfl | rfl <;> cases heff
    rfl
  exact ⟨snapshotA 2, List.mem_cons_self, _, _, rfl, by decide⟩

end QuicKeys.Daemon
