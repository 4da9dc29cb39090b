import QuicKeys.Daemon.Handlers
import QuicKeys.Lib.Stamps

/-!
# What the watchdog guarantees over a run

The watchdog measures the age of a key from `last_snapshot_ns`, the clock reading of the
last snapshot that contained the key. That stamp is 0 as long as no snapshot did, in which
case the key is never released, and it survives releases and later presses, in which case
a fresh press can be released with the age of an old snapshot.

Runs are sequential here and the clock readings of their events do not decrease
(`ClockMonotone`), so no subtraction wraps.
-/

namespace QuicKeys.Daemon

/-! ## Histories -/

/-- The clock readings of the events do not decrease. -/
def ClockMonotone (es : List Event) : Prop := es.Pairwise fun d e => d.now ≤ e.now

/-- An accepted down edge for `u`, by datagram or by binary record. -/
def Presses (args : Args) (e : Event) (u : UInt8) : Prop :=
  ∃ mods, effectOf args e = .edge mods true u

/-- A processed snapshot that contains `u`. -/
def Reaffirms (args : Args) (e : Event) (u : UInt8) : Prop :=
  ∃ mods keys, effectOf args e = .snapshot mods keys ∧ u ∈ keys

/-- An accepted down edge for `u` or a processed snapshot that contains it. -/
def Affirms (args : Args) (e : Event) (u : UInt8) : Prop := Presses args e u ∨ Reaffirms args e u

/-- `watchdog_ms` in nanoseconds. -/
def watchdogNs (args : Args) : ℕ := args.watchdogMs.toInt.toNat * 10 ^ 6

/-- `d` happened in the `watchdog_ms` up to `e`. -/
def Within (args : Args) (d e : Event) : Prop := e.now.toNat - d.now.toNat ≤ watchdogNs args

/-- `P` holds of every round of the monitor thread in the run, given the events before it. -/
def AtTicks (P : List Event → Event → Prop) (es : List Event) : Prop :=
  ∀ pre e post, es = pre ++ e :: post → e.msg = .tick → P pre e

lemma ClockMonotone.of_append {pre post : List Event} (h : ClockMonotone (pre ++ post)) :
    ClockMonotone pre := (List.pairwise_append.mp h).1

lemma ClockMonotone.le_of_mem {pre post : List Event} {d e : Event}
    (h : ClockMonotone (pre ++ e :: post)) (hd : d ∈ pre) : d.now.toNat ≤ e.now.toNat :=
  UInt64.le_iff_toNat_le.mp ((List.pairwise_append.mp h).2.2 d hd e List.mem_cons_self)

lemma ClockMonotone.toNat {es : List Event} (h : ClockMonotone es) :
    es.Pairwise fun d e => d.now.toNat ≤ e.now.toNat :=
  h.imp fun hle => UInt64.le_iff_toNat_le.mp hle

/-! ## The stamps of a run -/

section Reaffirms

variable {args : Args} {s : KeyState} {e : Event} {u : UInt8}

lemma lastSnapshotNs_of_reaffirms (h : Reaffirms args e u) :
    ((step args s e).keymeta u).lastSnapshotNs = e.now := by
  rcases h with ⟨mods, keys, heff, hu⟩
  rw [lastSnapshotNs_step, heff]
  exact if_pos hu

lemma lastSnapshotNs_of_not_reaffirms (h : ¬Reaffirms args e u) :
    ((step args s e).keymeta u).lastSnapshotNs = (s.keymeta u).lastSnapshotNs := by
  rw [lastSnapshotNs_step]
  split
  · rename_i mods keys heff
    exact if_neg fun hu => h ⟨mods, keys, heff, hu⟩
  · rfl

end Reaffirms

/-- **Step lemma.** A snapshot moves the stamps of its keys to its own clock reading; nothing
else touches a stamp. -/
lemma keeps_lastSnapshotNs (args : Args) (u : UInt8) :
    Stamps.Keeps (step args) (fun e => e.now.toNat)
      (fun s => (s.keymeta u).lastSnapshotNs.toNat) (fun e => Reaffirms args e u) where
  set _ _ h := congrArg UInt64.toNat (lastSnapshotNs_of_reaffirms h)
  keep _ _ h := congrArg UInt64.toNat (lastSnapshotNs_of_not_reaffirms h)

/-- The stamp of a key is the clock reading of the last snapshot that contained it. -/
structure StampedBy (args : Args) (es : List Event) (s : KeyState) : Prop where
  latest : ∀ u, ∀ e ∈ es, Reaffirms args e u →
    e.now.toNat ≤ (s.keymeta u).lastSnapshotNs.toNat
  source : ∀ u, (s.keymeta u).lastSnapshotNs = 0
    ∨ ∃ e ∈ es, Reaffirms args e u ∧ e.now = (s.keymeta u).lastSnapshotNs

lemma StampedBy.stamp_le {args : Args} {es : List Event} {s : KeyState}
    (h : StampedBy args es s) {n : ℕ} (hn : ∀ e ∈ es, e.now.toNat ≤ n) (u : UInt8) :
    (s.keymeta u).lastSnapshotNs.toNat ≤ n := by
  rcases h.source u with h0 | ⟨e, he, -, hnow⟩
  · rw [h0]
    exact Nat.zero_le n
  · rw [← hnow]
    exact hn e he

/-- **Run lemma.** -/
theorem stampedBy_run {args : Args} {es : List Event} (hclock : ClockMonotone es) :
    StampedBy args es (run args es) where
  latest u _ he hu := (keeps_lastSnapshotNs args u).latest hclock.toNat he hu
  source u := by
    rcases (keeps_lastSnapshotNs args u).source {} es with h0 | ⟨e, he, hu, hnow⟩
    · exact Or.inl (UInt64.toNat_inj.mp h0)
    · exact Or.inr ⟨e, he, hu, UInt64.toNat_inj.mp hnow⟩

/-! ## One round -/

section Round

variable {args : Args} {pre post : List Event} {e : Event}

/-- A pressed key is released iff some snapshot contained it (at a clock reading other than
0), but none within the last `watchdog_ms`. -/
lemma released_iff (hwd : 0 < args.watchdogMs) (hclock : ClockMonotone (pre ++ e :: post))
    (htick : e.msg = .tick) {u : UInt8} (hu : u ∈ (run args pre).pressed) :
    u ∉ (step args (run args pre) e).pressed
      ↔ (∃ r ∈ pre, Reaffirms args r u ∧ 0 < r.now.toNat)
        ∧ ¬∃ r ∈ pre, Reaffirms args r u ∧ Within args r e := by
  -- the stamp of `u` is the clock reading of its last snapshot before the round
  have hst : StampedBy args pre (run args pre) := stampedBy_run hclock.of_append
  have hle : ∀ d ∈ pre, d.now.toNat ≤ e.now.toNat := fun d hd => hclock.le_of_mem hd
  rw [mem_pressed_of_tick htick, not_and, Bool.not_eq_false, imp_iff_right hu,
    expired_iff_of_le (hst.stamp_le hle u), and_iff_right hwd]
  constructor
  · intro hexp
    rcases hexp with ⟨h0, hold⟩
    rcases (hst.source u).resolve_left h0 with ⟨r, hr, hru, hnow⟩
    refine ⟨⟨r, hr, hru, ?_⟩, ?_⟩
    · rw [hnow]
      exact Nat.pos_of_ne_zero (MachineInt.toNat_ne_zero.mpr h0)
    · intro hrecent
      rcases hrecent with ⟨d, hd, hdu, hwithin⟩
      have := hst.latest u d hd hdu
      rw [Within, watchdogNs] at hwithin
      omega
  · intro hold
    rcases hold with ⟨⟨r, hr, hru, hpos⟩, hnone⟩
    have hlatest := hst.latest u r hr hru
    have h0 : ((run args pre).keymeta u).lastSnapshotNs ≠ 0 :=
      MachineInt.toNat_ne_zero.mp (by omega)
    refine ⟨h0, ?_⟩
    rcases (hst.source u).resolve_left h0 with ⟨d, hd, hdu, hnow⟩
    have hd' : ¬Within args d e := fun h => hnone ⟨d, hd, hdu, h⟩
    rw [Within, watchdogNs, hnow] at hd'
    omega

end Round

/-! ## Stuck keys -/

/-- After a round, every pressed key was affirmed within the last `watchdog_ms`. -/
def BoundsStuckKeys (args : Args) (pre : List Event) (e : Event) : Prop :=
  ∀ u ∈ (step args (run args pre) e).pressed, ∃ d ∈ pre, Affirms args d u ∧ Within args d e

/-- **Keys that a snapshot has mentioned are bounded.** After every round, a pressed key
that some snapshot of the run contained was affirmed within the last `watchdog_ms`. -/
theorem affirmed_of_reaffirmed {args : Args} (hwd : 0 < args.watchdogMs) {es : List Event}
    (hclock : ClockMonotone es) (hpos : ∀ e ∈ es, 0 < e.now) :
    AtTicks (fun pre e => ∀ u ∈ (step args (run args pre) e).pressed,
      (∃ r ∈ pre, Reaffirms args r u) → ∃ d ∈ pre, Affirms args d u ∧ Within args d e) es := by
  intro pre e post heq htick u hu hmentioned
  subst heq
  rcases hmentioned with ⟨r, hr, hru⟩
  have hbefore : u ∈ (run args pre).pressed := ((mem_pressed_of_tick htick).mp hu).1
  by_contra hnone
  have hr0 : 0 < r.now.toNat :=
    UInt64.lt_iff_toNat_lt.mp (hpos r (List.mem_append_left _ hr))
  refine (released_iff hwd hclock htick hbefore).mpr ⟨⟨r, hr, hru, hr0⟩, ?_⟩ hu
  intro hrecent
  rcases hrecent with ⟨d, hd, hdu, hwithin⟩
  exact hnone ⟨d, hd, Or.inr hdu, hwithin⟩

/-- A key that an edge presses and a later snapshot mentions is bounded from then on. -/
theorem affirmed_of_reaffirmed_snapshotA :
    AtTicks (fun pre e => ∀ u ∈ (step {} (run {} pre) e).pressed,
      (∃ r ∈ pre, Reaffirms {} r u) → ∃ d ∈ pre, Affirms {} d u ∧ Within {} d e)
      [edgeA true 0 1, snapshotA 2, tickAt 100000000] :=
  affirmed_of_reaffirmed (by decide) (by unfold ClockMonotone; decide) (by decide)

/-- A key that was pressed by an edge and never mentioned by a snapshot stays pressed
through a round 1000 s later. -/
theorem not_boundsStuckKeys_edge_only :
    0 < ({} : Args).watchdogMs
      ∧ ClockMonotone [edgeA true 0 1, tickAt 1000000000000]
      ∧ (∀ e ∈ [edgeA true 0 1, tickAt 1000000000000], 0 < e.now)
      ∧ ¬AtTicks (BoundsStuckKeys {}) [edgeA true 0 1, tickAt 1000000000000] := by
  refine ⟨by decide, by unfold ClockMonotone; decide, by decide, fun h => ?_⟩
  rcases h [edgeA true 0 1] _ [] rfl rfl 4 (by decide) with ⟨d, hd, -, hwithin⟩
  obtain rfl := List.mem_singleton.mp hd
  revert hwithin
  unfold Within
  decide

/-! ## Fresh presses -/

/-- A round does not release a key for which a down edge was accepted in the last
`watchdog_ms`. -/
def SparesFreshPresses (args : Args) (pre : List Event) (e : Event) : Prop :=
  ∀ u ∈ (run args pre).pressed, u ∉ (step args (run args pre) e).pressed →
    ∀ d ∈ pre, Presses args d u → ¬Within args d e

/-- A pressed key with a down edge in the last `watchdog_ms` that was ever contained in a
snapshot was contained in one in the last `watchdog_ms`. -/
def FreshPressesStamped (args : Args) (pre : List Event) (e : Event) : Prop :=
  ∀ u ∈ (run args pre).pressed, (∃ d ∈ pre, Presses args d u ∧ Within args d e) →
    (∃ r ∈ pre, Reaffirms args r u ∧ 0 < r.now.toNat) →
    ∃ r ∈ pre, Reaffirms args r u ∧ Within args r e

/-- **When fresh presses survive.** The rounds of a run spare the fresh presses iff no
round meets a fresh press whose only snapshots are old. -/
theorem sparesFreshPresses_iff {args : Args} (hwd : 0 < args.watchdogMs) {es : List Event}
    (hclock : ClockMonotone es) :
    AtTicks (SparesFreshPresses args) es ↔ AtTicks (FreshPressesStamped args) es := by
  constructor
  · intro h pre e post heq htick u hu hpress hr
    subst heq
    rcases hpress with ⟨d, hd, hdu, hwithin⟩
    by_contra hnone
    have hreleased := (released_iff hwd hclock htick hu).mpr ⟨hr, hnone⟩
    exact h pre e post rfl htick u hu hreleased d hd hdu hwithin
  · intro h pre e post heq htick u hu hreleased d hd hdu hwithin
    subst heq
    rcases (released_iff hwd hclock htick hu).mp hreleased with ⟨hr, hnone⟩
    exact hnone (h pre e post rfl htick u hu ⟨d, hd, hdu, hwithin⟩ hr)

/-- A key that a snapshot mentions, and that is then released and pressed again 1 s later. -/
def repress : List Event := [snapshotA 1, edgeA false 0 2, edgeA true 1000 1000000000]

/-- The condition decides the run in which a round follows the second press. -/
theorem sparesFreshPresses_iff_repress :
    AtTicks (SparesFreshPresses {}) (repress ++ [tickAt 1000000001])
      ↔ AtTicks (FreshPressesStamped {}) (repress ++ [tickAt 1000000001]) :=
  sparesFreshPresses_iff (by decide) (by unfold ClockMonotone; decide)

/-- A round 1 ns after the second press releases the key. -/
theorem not_sparesFreshPresses_repress :
    0 < ({} : Args).watchdogMs
      ∧ ClockMonotone (repress ++ [tickAt 1000000001])
      ∧ ¬AtTicks (SparesFreshPresses {}) (repress ++ [tickAt 1000000001]) := by
  refine ⟨by decide, by unfold ClockMonotone; decide, fun h => ?_⟩
  refine h repress _ [] rfl rfl 4 (by decide) (by decide) (edgeA true 1000 1000000000)
    (by simp [repress]) ⟨some 0, rfl⟩ ?_
  unfold Within
  decide

end QuicKeys.Daemon
