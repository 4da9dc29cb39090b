import QuicKeys.Daemon.Threads
import QuicKeys.Daemon.WatchdogTiming

/-!
# The watchdog against concurrent snapshots

Both the monitor thread and a snapshot callback read the clock before they lock
`state_mu`. So the critical section of a snapshot with a later clock reading can come
before the scan of a round with an earlier one, and the scan then computes the age of the
key with a subtraction that wraps.
-/

namespace QuicKeys.Daemon

open Runs

/-! ## The last snapshot of a key -/

/-- `r` is the last snapshot of the history that contains `u`. -/
def LastReaffirmed (args : Args) (es : List Event) (r : Event) (u : UInt8) : Prop :=
  ∃ pre post, es = pre ++ r :: post ∧ Reaffirms args r u ∧ ∀ d ∈ post, ¬Reaffirms args d u

section LastReaffirmed

variable {args : Args} {es : List Event} {r e : Event} {u : UInt8}

lemma lastReaffirmed_concat (h : Reaffirms args e u) : LastReaffirmed args (es ++ [e]) e u :=
  ⟨es, [], rfl, h, fun _ hd => absurd hd List.not_mem_nil⟩

lemma LastReaffirmed.concat (hr : LastReaffirmed args es r u) (h : ¬Reaffirms args e u) :
    LastReaffirmed args (es ++ [e]) r u := by
  rcases hr with ⟨pre, post, rfl, hru, hpost⟩
  refine ⟨pre, post ++ [e], by simp, hru, fun d hd => ?_⟩
  rcases List.mem_append.mp hd with hd | hd
  · exact hpost d hd
  · rwa [List.mem_singleton.mp hd]

/-- **Run lemma.** A key that carries a stamp was contained in some snapshot. -/
lemma exists_lastReaffirmed (args : Args) (es : List Event) (u : UInt8) :
    ((run args es).keymeta u).lastSnapshotNs = 0 ∨ ∃ r, LastReaffirmed args es r u := by
  induction es using List.reverseRecOn with
  | nil => exact Or.inl rfl
  | append_singleton es e ih =>
    rw [run_concat]
    by_cases he : Reaffirms args e u
    · exact Or.inr ⟨e, lastReaffirmed_concat he⟩
    · rw [lastSnapshotNs_of_not_reaffirms he]
      exact ih.imp_right fun ⟨r, hr⟩ => ⟨r, hr.concat he⟩

/-- **Run lemma.** The stamp of a key is the clock reading of its last snapshot, in the
order of the critical sections. -/
lemma LastReaffirmed.stamp (h : LastReaffirmed args es r u) :
    ((run args es).keymeta u).lastSnapshotNs = r.now := by
  rcases h with ⟨pre, post, rfl, hru, hpost⟩
  have hkeeps := keeps_lastSnapshotNs args u
  rw [← UInt64.toNat_inj, run, List.foldl_append, List.foldl_cons, hkeeps.foldl_eq hpost]
  exact hkeeps.set _ _ hru

end LastReaffirmed

/-! ## One scan -/

/-- The scan of a round releases a key only if the round read the clock more than
`watchdog_ms` after the stamp of the key, without wrapping. -/
def ReleasesOnlyExpired (args : Args) (_ : List Action) (s : Sys) (a : Action) : Prop :=
  ∀ t e, a = .apply t → s.phase t = .stamped e → e.msg = .tick →
    ∀ u ∈ s.keys.pressed, u ∉ (step args s.keys e).pressed →
      (s.keys.keymeta u).lastSnapshotNs.toNat + watchdogNs args < e.now.toNat

/-- At the scan of a round, no pressed key was last reaffirmed by a snapshot that read the
clock after the round did. (A reading almost `2 ^ 64` ns ahead would do no harm.) -/
def NotOvertaken (args : Args) (_ : List Action) (s : Sys) (a : Action) : Prop :=
  ∀ t e, a = .apply t → s.phase t = .stamped e → e.msg = .tick →
    ∀ u ∈ s.keys.pressed, ∀ r, LastReaffirmed args s.history r u →
      r.now.toNat ≤ e.now.toNat ∨ 2 ^ 64 + e.now.toNat ≤ r.now.toNat + watchdogNs args

section Scan

variable {args : Args} {s : KeyState} {e : Event} {u : UInt8}

lemma not_mem_tick_iff (htick : e.msg = .tick) (hu : u ∈ s.pressed) :
    u ∉ (step args s e).pressed ↔ expired args e.now (s.keymeta u) = true := by
  rw [mem_pressed_of_tick htick, not_and, Bool.not_eq_false, imp_iff_right hu]

/-- A stamp that lies ahead expires unless it is almost `2 ^ 64` ns ahead. -/
lemma expired_iff_of_lt {now : UInt64} {km : KeyMeta} (hwd : 0 < args.watchdogMs)
    (h : now.toNat < km.lastSnapshotNs.toNat) :
    expired args now km = true
      ↔ km.lastSnapshotNs.toNat + watchdogNs args < 2 ^ 64 + now.toNat := by
  have h0 : km.lastSnapshotNs ≠ 0 := MachineInt.toNat_ne_zero.mp (by omega)
  have hlt := km.lastSnapshotNs.toNat_lt
  simp only [expired, Bool.and_eq_true, decide_eq_true_eq, bne_iff_ne, and_assoc]
  rw [and_iff_right hwd, and_iff_right h0, UInt64.lt_iff_toNat_lt,
    MachineInt.toNat_sub_of_lt h, toNat_msToNs hwd, watchdogNs]
  omega

/-- A released key is released too early iff its stamp lies ahead of the round. -/
lemma released_early_iff (hwd : 0 < args.watchdogMs) (htick : e.msg = .tick)
    (hu : u ∈ s.pressed) :
    (u ∉ (step args s e).pressed →
        (s.keymeta u).lastSnapshotNs.toNat + watchdogNs args < e.now.toNat)
      ↔ (s.keymeta u).lastSnapshotNs.toNat ≤ e.now.toNat
        ∨ 2 ^ 64 + e.now.toNat ≤ (s.keymeta u).lastSnapshotNs.toNat + watchdogNs args := by
  rw [not_mem_tick_iff htick hu]
  by_cases hle : (s.keymeta u).lastSnapshotNs.toNat ≤ e.now.toNat
  · rw [expired_iff_of_le hle, watchdogNs]
    constructor
    · exact fun _ => Or.inl hle
    · intro _ hexp
      rcases hexp with ⟨-, -, hold⟩
      omega
  · rw [expired_iff_of_lt hwd (Nat.lt_of_not_le hle)]
    omega

end Scan

/-! ## Runs -/

/-- **Exactly the overtaken rounds release keys too early**: in a run every scan releases
only keys that expired iff no scan comes behind a snapshot that read the clock later. -/
theorem releasesOnlyExpired_iff {args : Args} (hwd : 0 < args.watchdogMs) (as : List Action) :
    Meets (sysStep args) {} (ReleasesOnlyExpired args) as
      ↔ Meets (sysStep args) {} (NotOvertaken args) as := by
  refine forall_congr' fun pre => forall_congr' fun a => forall_congr' fun post =>
    forall_congr' fun s => imp_congr_right fun _ => imp_congr_right fun hrun => ?_
  -- the stamps of the shared state are those of the sequential run of its history
  have hkeys : s.keys = run args s.history := linearized_of_trace hrun
  refine forall_congr' fun t => forall_congr' fun e => imp_congr_right fun _ =>
    imp_congr_right fun _ => imp_congr_right fun htick => forall_congr' fun u =>
    imp_congr_right fun hu => ?_
  rw [released_early_iff hwd htick hu, hkeys]
  constructor
  · intro h r hr
    rwa [← hr.stamp]
  · intro h
    rcases exists_lastReaffirmed args s.history u with h0 | ⟨r, hr⟩
    · rw [h0]
      exact Or.inl (Nat.zero_le _)
    · rw [hr.stamp]
      exact h r hr

/-- A round reads the clock, then a snapshot of `a` does and is applied, then the round
scans. -/
def overtaken : List Action :=
  [.read .watchdog (tickAt 1), .read (.quic 0) (snapshotA 2), .apply (.quic 0),
    .apply .watchdog]

/-- The condition decides the run of one round and one snapshot. -/
theorem releasesOnlyExpired_iff_overtaken :
    Meets (sysStep {}) {} (ReleasesOnlyExpired {}) overtaken
      ↔ Meets (sysStep {}) {} (NotOvertaken {}) overtaken :=
  releasesOnlyExpired_iff (by decide) overtaken

/-- The round releases the key the snapshot has just reaffirmed. -/
theorem not_releasesOnlyExpired_overtaken :
    0 < ({} : Args).watchdogMs
      ∧ ¬Meets (sysStep {}) {} (ReleasesOnlyExpired {}) overtaken := by
  refine ⟨by decide, fun h => ?_⟩
  have hlate := h [.read .watchdog (tickAt 1), .read (.quic 0) (snapshotA 2), .apply (.quic 0)]
    (.apply .watchdog) [] _ rfl (trace_of_foldlM rfl) .watchdog (tickAt 1) rfl rfl rfl 4
    (by decide) (by decide)
  revert hlate
  decide

end QuicKeys.Daemon
